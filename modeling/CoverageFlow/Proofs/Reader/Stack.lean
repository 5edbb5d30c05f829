import CoverageFlow.Proofs.Reader.Locality
import CoverageFlow.Reader.Stack

/-!
# Readers stay inside their record

A stack of readers explores a file: a record is entered by putting a reader of its body on top, and
left by dropping that reader. Operations may fail at any place, even in the middle of a field, and
the exploration goes on from there.

Only the reader on top ever moves, and a reader that moves skips some of its bytes. So every reader
shows the bytes of the file from its position to the end of its stretch, which stays where it was
when the reader was made. A reader is made for bytes that the reader below it has just passed, and
so the stretches of the readers stand in the file from top to bottom, each before the position of
the next.

## Main definitions

* `Reader.StretchOf`: a reader of a stretch of a file.
* `ReaderStack.run`, `ReaderStack.Outlives`: what operations leave, and which readers survive them.
* `ReaderStack.decodes`: the offsets of the bytes that an operation looks at.
* `ReaderStack.Moves`: all that an operation can do to a stack.

## Main results

* `ReaderStack.moves_after`: every operation moves the stack, whether it succeeds or not.
* `ReaderStack.staysInside`: how the readers of a file lie in the file, after any operations.
-/

namespace CoverageFlow

/-! ### Readers that move on -/

namespace Reader

variable {o : ByteOrder} {bytes : List UInt8} {r r' r'' : Reader} {n : ℕ}

/-- The offset behind the last byte of a reader. -/
def stop (r : Reader) : ℕ :=
  r.position + r.remaining

/-- What a reader has not read are the bytes of a file from its position on. -/
structure StretchOf (o : ByteOrder) (bytes : List UInt8) (r : Reader) : Prop where
  order : r.order = o
  unread : r.unread = (bytes.drop r.position).take r.remaining
  stop_le : r.stop ≤ bytes.length

/-- A reader has skipped some of its bytes. -/
def Advances (r r' : Reader) : Prop :=
  ∃ n ≤ r.remaining, r' = r.skip n

@[simp] theorem position_skip (r : Reader) (n : ℕ) : (r.skip n).position = r.position + n :=
  rfl

@[simp] theorem remaining_skip (r : Reader) (n : ℕ) : (r.skip n).remaining = r.remaining - n :=
  List.length_drop

theorem stop_skip (h : n ≤ r.remaining) : (r.skip n).stop = r.stop := by
  rw [stop, stop, position_skip, remaining_skip]
  omega

theorem Advances.refl (r : Reader) : r.Advances r :=
  ⟨0, Nat.zero_le _, rfl⟩

theorem Advances.trans (h : r.Advances r') (h' : r'.Advances r'') : r.Advances r'' := by
  obtain ⟨n, hn, rfl⟩ := h
  obtain ⟨m, hm, rfl⟩ := h'
  rw [remaining_skip] at hm
  exact ⟨n + m, by omega, skip_skip r n m⟩

theorem Advances.position_le (h : r.Advances r') : r.position ≤ r'.position := by
  obtain ⟨n, -, rfl⟩ := h
  exact Nat.le_add_right _ _

theorem Advances.stop_eq (h : r.Advances r') : r'.stop = r.stop := by
  obtain ⟨n, hn, rfl⟩ := h
  exact stop_skip hn

theorem position_le_stop (r : Reader) : r.position ≤ r.stop :=
  Nat.le_add_right _ _

/-- A part of a stretch is a stretch. -/
theorem StretchOf.part (h : StretchOf o bytes r) {a b : ℕ} (hab : a + b ≤ r.remaining)
    (horder : r'.order = r.order) (hposition : r'.position = r.position + a)
    (hunread : r'.unread = (r.unread.drop a).take b) : StretchOf o bytes r' := by
  have hremaining : r'.remaining = b := by
    rw [remaining, hunread, List.length_take, List.length_drop]
    rw [remaining] at hab
    omega
  refine ⟨horder.trans h.order, ?_, ?_⟩
  · rw [hunread, hremaining, hposition, h.unread, List.drop_take, List.drop_drop, List.take_take]
    rw [min_eq_left (by omega)]
  · have := h.stop_le
    rw [stop, hremaining, hposition]
    rw [stop] at this
    omega

theorem StretchOf.advances (h : StretchOf o bytes r) (h' : r.Advances r') :
    StretchOf o bytes r' := by
  obtain ⟨n, hn, rfl⟩ := h'
  refine h.part (a := n) (b := r.remaining - n) (by omega) rfl rfl ?_
  rw [skip, List.take_of_length_le (by rw [List.length_drop]; exact Nat.le_refl _)]

/-- The reader of a file stands at offset twelve and has the rest of the file to read. -/
theorem stretchOf_ofBytes (h : ofBytes bytes = .ok r) : StretchOf r.order bytes r := by
  have hbytes := eq_header_append_unread h
  have hposition := position_ofBytes h
  have hunread := unread_ofBytes h
  have hlength : bytes.length = 12 + r.remaining := by
    rw [hbytes, List.length_append]
    simp only [Writer.header, List.length_append, Writer.length_word]
    rfl
  refine ⟨rfl, ?_, ?_⟩
  · rw [hposition, ← hunread, remaining, List.take_length]
  · rw [stop, hposition, hlength]

end Reader

theorem Reader.le_remaining_of_record {r : Reader} {o : ByteOrder} {tag length : UInt32}
    {body rest : List UInt8}
    (h : r.unread = Writer.word o tag ++ Writer.word o length ++ body ++ rest) :
    8 + body.length ≤ r.remaining := by
  rw [remaining, h]
  simp only [List.length_append, Writer.length_word]
  omega

theorem Decoder.lasting_advances (r : Reader) : Decoder.Lasting r.Advances where
  skip _ h count hcount := h.trans ⟨count, hcount, rfl⟩

/-! ### What an operation does -/

namespace ReaderStack

variable {o : ByteOrder} {bytes : List UInt8} {s t : ReaderStack} {op : Operation}
  {ops later : List Operation}

/-- All readers, that on top first. -/
def readers (s : ReaderStack) : List Reader :=
  s.top :: s.below

/-- What an operation leaves, whether it succeeds or not. -/
def after (s : ReaderStack) (op : Operation) : ReaderStack :=
  match perform op s with
  | .ok _ s' => s'
  | .error _ s' => s'

/-- What operations leave, one after the other. -/
def run (s : ReaderStack) (ops : List Operation) : ReaderStack :=
  ops.foldl after s

/-- All that an operation can do to a stack. -/
inductive Moves (s : ReaderStack) : Operation → ReaderStack → Prop
  /-- The top reader moves on, and names may be pooled. -/
  | read {op : Operation} {r : Reader} (hop : op ≠ .leave) (moved : s.top.Advances r)
      (symbols : SymbolTable) : Moves s op { s with top := r, symbols := symbols }
  /-- The body of a record gets a reader of its own, and the top reader moves past the record. -/
  | enter {tag length : UInt32} {body rest : List UInt8}
      (unread : s.top.unread = Writer.word s.top.order tag ++ Writer.word s.top.order length ++
        body ++ rest)
      (fits : body.length = 4 * length.toNat) :
      Moves s .enter { s with
        top := Decoder.bodyReader s.top body
        below := s.top.skip (8 + body.length) :: s.below }
  /-- The top reader is dropped. -/
  | leave {r : Reader} {below : List Reader} (hbelow : s.below = r :: below) :
      Moves s .leave { s with top := r, below := below }
  /-- The reader of the whole file stays. -/
  | stay (hbelow : s.below = []) : Moves s .leave s

/-! #### Steps on the top reader -/

section

variable {α : Type}

theorem zooms_onTop (p : Decoder α) : Zooms top (fun s r => { s with top := r }) p (onTop p) where
  part_put _ _ := rfl
  put_put _ _ _ := rfl
  value s a r h := by rw [onTop, h]
  failure s e r h := by rw [onTop, h]

/-- The top reader and the pooled names. -/
def notes (s : ReaderStack) : NotesState :=
  ⟨s.top, s.symbols⟩

theorem zooms_onTopPooling (p : NotesDecoder α) :
    Zooms notes (fun s t => { s with top := t.reader, symbols := t.symbols }) p
      (onTopPooling p) where
  part_put _ _ := rfl
  put_put _ _ _ := rfl
  value s a r h := by
    rw [notes] at h
    rw [onTopPooling, h]
  failure s e r h := by
    rw [notes] at h
    rw [onTopPooling, h]

theorem endsIn_onTop {p : Decoder α} (hp : ∀ r : Reader, Preserves r.Advances p)
    (s : ReaderStack) (op : Operation) (hop : op ≠ .leave) :
    EndsIn (· = s) (onTop p) (fun _ => Moves s op) fun _ => Moves s op where
  value _ hs a t h := by
    obtain ⟨r, hr, rfl⟩ := (zooms_onTop p).exists_of_ok h
    cases hs
    exact .read hop ((hp _).value _ (.refl _) _ _ hr) _
  failure _ hs e t h := by
    obtain ⟨r, hr, rfl⟩ := (zooms_onTop p).exists_of_error h
    cases hs
    exact .read hop ((hp _).failure _ (.refl _) _ _ hr) _

theorem endsIn_onTopPooling {p : NotesDecoder α}
    (hp : ∀ r : Reader, Preserves (fun s : NotesState => r.Advances s.reader) p) (s : ReaderStack)
    (op : Operation) (hop : op ≠ .leave) :
    EndsIn (· = s) (onTopPooling p) (fun _ => Moves s op) fun _ => Moves s op where
  value _ hs a t h := by
    obtain ⟨r, hr, rfl⟩ := (zooms_onTopPooling p).exists_of_ok h
    cases hs
    exact .read hop ((hp _).value _ (.refl _) _ _ hr) _
  failure _ hs e t h := by
    obtain ⟨r, hr, rfl⟩ := (zooms_onTopPooling p).exists_of_error h
    cases hs
    exact .read hop ((hp _).failure _ (.refl _) _ _ hr) _

end

theorem endsIn_enter (s : ReaderStack) :
    EndsIn (· = s) (perform .enter) (fun _ => Moves s .enter) fun _ => Moves s .enter where
  value _ hs a t h := by
    obtain ⟨⟨tag, body⟩, t', hrecord, h⟩ := bind_eq_ok_iff.1 h
    obtain ⟨r, hr, rfl⟩ := (zooms_onTop _).exists_of_ok hrecord
    cases hs
    cases h
    obtain ⟨length, bytes, rest, hunread, hfits, rfl, rfl⟩ := Decoder.exists_of_record hr
    exact .enter hunread hfits
  failure _ hs e t h := by
    have hrecord := endsIn_onTop (fun r => Decoder.preserves_record (Decoder.lasting_advances r))
      s .enter (by decide)
    rw [perform, run_bind] at h
    split at h
    · cases h
    · next hend =>
      cases h
      exact hrecord.failure _ hs _ _ hend

theorem moves_pop (s : ReaderStack) : Moves s .leave s.pop := by
  rw [pop]
  split
  · next h => exact .stay h
  · next h => exact .leave h

theorem endsIn_perform (op : Operation) (s : ReaderStack) :
    EndsIn (· = s) (perform op) (fun _ => Moves s op) fun _ => Moves s op := by
  have hI := Decoder.lasting_advances
  cases op with
  | word =>
    exact (endsIn_onTop (fun r => Decoder.preserves_word (hI r)) s .word nofun).map fun _ _ => id
  | signedWord =>
    exact (endsIn_onTop (fun r => (Decoder.preserves_word (hI r)).map _) s .signedWord nofun).map
      fun _ _ => id
  | long =>
    exact (endsIn_onTop (fun r => Decoder.preserves_long (hI r)) s .long nofun).map fun _ _ => id
  | string =>
    exact (endsIn_onTop (fun r => Decoder.preserves_string (hI r)) s .string nofun).map
      fun _ _ => id
  | nextTag =>
    refine endsIn_get_bind fun t ht => endsIn_pure fun u hu => ?_
    subst ht hu
    exact .read (by decide : Operation.nextTag ≠ .leave) (.refl _) _
  | enter => exact endsIn_enter s
  | leave =>
    refine ⟨fun t ht a u hu => ?_, fun t ht e u hu => ?_⟩
    · cases ht
      cases hu
      exact moves_pop _
    · cases hu
  | notesFile =>
    exact (endsIn_onTopPooling (fun r => NotesDecoder.preserves_notesFile (hI r)) s
      .notesFile nofun).map fun _ _ => id
  | dataFile =>
    exact (endsIn_onTop (fun r => Decoder.preserves_dataFile (hI r)) s .dataFile nofun).map
      fun _ _ => id

/-- Every operation moves the stack, whether it succeeds or not. -/
theorem moves_after (s : ReaderStack) (op : Operation) : Moves s op (s.after op) := by
  rw [after]
  split
  · next h => exact (endsIn_perform op s).value s rfl _ _ h
  · next h => exact (endsIn_perform op s).failure s rfl _ _ h

/-! ### Stretches from top to bottom -/

/-- The readers show stretches of a file, each of them before the position of those below it. -/
structure Lies (o : ByteOrder) (bytes : List UInt8) (s : ReaderStack) : Prop where
  stretch : ∀ r ∈ s.readers, r.StretchOf o bytes
  nested : s.readers.Pairwise fun child parent => child.stop ≤ parent.position

theorem lies_ofReader {r : Reader} (h : r.StretchOf o bytes) : Lies o bytes (ofReader r) where
  stretch _ hr := List.mem_singleton.1 hr ▸ h
  nested := List.pairwise_singleton ..

/-- What an operation leaves lies in the file as what it finds does. -/
theorem Lies.moves (hs : Lies o bytes s) (h : Moves s op t) : Lies o bytes t := by
  obtain ⟨hstretch, hnested⟩ := hs
  rw [readers, List.forall_mem_cons] at hstretch
  rw [readers, List.pairwise_cons] at hnested
  cases h with
  | read _ moved _ =>
    refine ⟨List.forall_mem_cons.2 ⟨hstretch.1.advances moved, hstretch.2⟩, ?_⟩
    refine List.pairwise_cons.2 ⟨fun parent hparent => ?_, hnested.2⟩
    exact moved.stop_eq ▸ hnested.1 parent hparent
  | @enter tag length body rest unread fits =>
    have hfits := Reader.le_remaining_of_record unread
    have hpassed : s.top.Advances (s.top.skip (8 + body.length)) := ⟨_, hfits, rfl⟩
    have hbody : (Decoder.bodyReader s.top body).unread =
        (s.top.unread.drop 8).take body.length := by
      rw [unread, List.append_assoc, List.drop_left' (by simp only [List.length_append,
        Writer.length_word]), List.take_left]
      rfl
    have hstop : (Decoder.bodyReader s.top body).stop =
        (s.top.skip (8 + body.length)).position := by
      rw [Reader.position_skip, ← Nat.add_assoc]
      rfl
    have hbehind : ∀ parent ∈ s.below, (s.top.skip (8 + body.length)).stop ≤ parent.position :=
      hpassed.stop_eq ▸ hnested.1
    refine ⟨List.forall_mem_cons.2 ⟨hstretch.1.part hfits rfl rfl hbody,
      List.forall_mem_cons.2 ⟨hstretch.1.advances hpassed, hstretch.2⟩⟩,
      List.pairwise_cons.2 ⟨List.forall_mem_cons.2 ⟨hstop.le, fun parent hparent => ?_⟩,
        List.pairwise_cons.2 ⟨hbehind, hnested.2⟩⟩⟩
    exact hstop.le.trans ((Reader.position_le_stop _).trans (hbehind parent hparent))
  | leave hbelow =>
    rw [hbelow] at hstretch hnested
    exact ⟨hstretch.2, hnested.2⟩
  | stay _ => exact ⟨List.forall_mem_cons.2 hstretch, List.pairwise_cons.2 hnested⟩

theorem Lies.run (hs : Lies o bytes s) (ops : List Operation) : Lies o bytes (s.run ops) := by
  induction ops generalizing s with
  | nil => exact hs
  | cons op ops ih => exact ih (hs.moves (moves_after s op))

/-! ### Readers that survive -/

/-- While operations are done, there are always more than `d` readers, and so the reader with `d`
readers below it stays. -/
def Outlives (d : ℕ) (s : ReaderStack) : List Operation → Prop
  | [] => d < s.depth
  | op :: ops => d < s.depth ∧ Outlives d (s.after op) ops

theorem length_readers (s : ReaderStack) : s.readers.length = s.depth :=
  rfl

/-- An operation that does not drop a reader leaves those below it as they are and moves it on. What
is above it was there before, or it is further back than a header. -/
theorem Moves.frame {higher lower : List Reader} {r : Reader} (h : Moves s op t)
    (hs : s.readers = higher ++ r :: lower) :
    (∃ higher' r', t.readers = higher' ++ r' :: lower ∧ r.Advances r' ∧ ∀ b' ∈ higher',
      (∃ b ∈ higher, b.position ≤ b'.position) ∨ r.position + 8 ≤ b'.position) ∨
    t.readers = lower := by
  cases higher with
  | nil =>
    obtain ⟨rfl, rfl⟩ := List.cons.inj hs
    cases h with
    | read _ moved _ => exact .inl ⟨[], _, rfl, moved, by simp⟩
    | @enter tag length body rest unread fits =>
      refine .inl ⟨[_], _, rfl, ⟨_, Reader.le_remaining_of_record unread, rfl⟩,
        List.forall_mem_singleton.2 (.inr (Nat.le_refl _))⟩
    | leave hbelow => exact .inr hbelow.symm
    | stay _ => exact .inl ⟨[], _, rfl, .refl _, by simp⟩
  | cons top higher =>
    obtain ⟨rfl, hbelow⟩ := List.cons.inj hs
    have hhigher : ∀ b ∈ higher, ∃ b₀ ∈ s.top :: higher, b₀.position ≤ b.position :=
      fun b hb => ⟨b, List.mem_cons_of_mem _ hb, Nat.le_refl _⟩
    cases h with
    | @read _ top' _ moved _ =>
      refine .inl ⟨top' :: higher, r, congrArg _ hbelow, .refl r,
        List.forall_mem_cons.2 ⟨.inl ⟨_, List.mem_cons_self, moved.position_le⟩,
          fun b hb => .inl (hhigher b hb)⟩⟩
    | @enter tag length body rest unread fits =>
      have htop : s.top ∈ s.top :: higher := List.mem_cons_self
      exact .inl ⟨_ :: _ :: higher, r, congrArg (_ :: _ :: ·) hbelow, .refl r,
        List.forall_mem_cons.2 ⟨.inl ⟨_, htop, Nat.le_add_right _ _⟩,
          List.forall_mem_cons.2 ⟨.inl ⟨_, htop, Nat.le_add_right _ _⟩,
            fun b hb => .inl (hhigher b hb)⟩⟩⟩
    | leave hleft =>
      exact .inl ⟨higher, r, hleft.symm.trans hbelow, .refl r, fun b hb => .inl (hhigher b hb)⟩
    | stay hempty =>
      rw [hempty] at hbelow
      cases higher <;> cases hbelow

variable {higher lower : List Reader} {r : Reader}

theorem Outlives.lt_depth {d : ℕ} (h : Outlives d s ops) : d < s.depth := by
  cases ops with
  | nil => exact h
  | cons op ops => exact h.1

theorem lt_depth_of_readers (h : s.readers = higher ++ r :: lower) : lower.length < s.depth := by
  rw [← length_readers, h, List.length_append, List.length_cons]
  omega

/-- The same for all operations that a reader survives. -/
theorem Outlives.frame (h : Outlives lower.length s ops) (hs : s.readers = higher ++ r :: lower) :
    ∃ higher' r', (s.run ops).readers = higher' ++ r' :: lower ∧ r.Advances r' ∧ ∀ b' ∈ higher',
      (∃ b ∈ higher, b.position ≤ b'.position) ∨ r.position + 8 ≤ b'.position := by
  induction ops generalizing s higher r with
  | nil => exact ⟨higher, r, hs, .refl r, fun b hb => .inl ⟨b, hb, Nat.le_refl _⟩⟩
  | cons op ops ih =>
    obtain ⟨higher₁, r₁, hs₁, hr₁, hhigher₁⟩ | hdropped := (moves_after s op).frame hs
    · obtain ⟨higher', r', hs', hr', hhigher'⟩ := ih h.2 hs₁
      refine ⟨higher', r', hs', hr₁.trans hr', fun b' hb' => ?_⟩
      obtain ⟨b₁, hb₁, hle⟩ | hle := hhigher' b' hb'
      · obtain ⟨b, hb, hle₁⟩ | hle₁ := hhigher₁ b₁ hb₁
        · exact .inl ⟨b, hb, hle₁.trans hle⟩
        · exact .inr (hle₁.trans hle)
      · exact .inr (Nat.le_trans (Nat.add_le_add_right hr₁.position_le 8) hle)
    · have hdepth := h.2.lt_depth
      rw [← length_readers, hdropped] at hdepth
      exact absurd hdepth (Nat.lt_irrefl _)

/-- No reader goes back, and none is made before another one. -/
theorem Moves.le_position {x : ℕ} (h : Moves s op t) (hs : ∀ b ∈ s.readers, x ≤ b.position) :
    ∀ b ∈ t.readers, x ≤ b.position := by
  rw [readers, List.forall_mem_cons] at hs
  cases h with
  | read _ moved _ => exact List.forall_mem_cons.2 ⟨hs.1.trans moved.position_le, hs.2⟩
  | enter _ _ =>
    exact List.forall_mem_cons.2 ⟨Nat.le_add_right_of_le hs.1,
      List.forall_mem_cons.2 ⟨Nat.le_add_right_of_le hs.1, hs.2⟩⟩
  | leave hbelow =>
    rw [hbelow] at hs
    exact hs.2
  | stay _ => exact List.forall_mem_cons.2 hs

theorem le_position_run {x : ℕ} (hs : ∀ b ∈ s.readers, x ≤ b.position) (ops : List Operation) :
    ∀ b ∈ (s.run ops).readers, x ≤ b.position := by
  induction ops generalizing s with
  | nil => exact hs
  | cons op ops ih => exact ih ((moves_after s op).le_position hs)

/-- Once a reader is dropped, all readers are behind its stretch. -/
theorem Lies.stop_le_of_not_outlives (hlies : Lies o bytes s)
    (hs : s.readers = higher ++ r :: lower)
    (h : ¬ Outlives lower.length s ops) : ∀ b ∈ (s.run ops).readers, r.stop ≤ b.position := by
  induction ops generalizing s higher r with
  | nil => exact absurd (lt_depth_of_readers hs) h
  | cons op ops ih =>
    have hmoves := moves_after s op
    obtain ⟨higher₁, r₁, hs₁, hr₁, -⟩ | hdropped := hmoves.frame hs
    · rw [← hr₁.stop_eq]
      exact ih (hlies.moves hmoves) hs₁ fun hrest => h ⟨lt_depth_of_readers hs, hrest⟩
    · refine le_position_run (s := s.after op) (fun b hb => ?_) ops
      have hnested := hlies.nested
      rw [hs, List.pairwise_append, List.pairwise_cons] at hnested
      exact hnested.2.1.1 b (hdropped ▸ hb)

/-! ### Bytes that are decoded -/

/-- The offsets of the bytes that an operation looks at. A record is entered by its tag and its
length. All other steps look at what they take and at one tag that may come next. -/
def decodes (op : Operation) (s : ReaderStack) : Set ℕ :=
  match op with
  | .enter => Set.Ico s.top.position (min (s.top.position + 8) s.top.stop)
  | .leave => ∅
  | _ => Set.Ico s.top.position (min ((s.after op).top.position + 4) s.top.stop)

theorem mem_decodes {x : ℕ} (h : x ∈ decodes op s) : s.top.position ≤ x ∧ x < s.top.stop := by
  unfold decodes at h
  split at h
  · exact ⟨h.1, lt_of_lt_of_le h.2 (min_le_right _ _)⟩
  · exact h.elim
  · exact ⟨h.1, lt_of_lt_of_le h.2 (min_le_right _ _)⟩

/-- How an operation ends. -/
def answer (op : Operation) (s : ReaderStack) : Except Failure Value :=
  match perform op s with
  | .ok value _ => .ok value
  | .error e _ => .error e

/-- The top readers differ at most from an offset of the file on. -/
def AgreesBelow (e : ℕ) (s s' : ReaderStack) : Prop :=
  ∃ r, Reader.AgreesBelow e s.top r ∧ s' = { s with top := r }

/-- A step looks at what it passes and at no more than the next tag. -/
abbrev Confined {α : Type} (p : Explorer α) : Prop :=
  CoverageFlow.Confined 4 (fun s : ReaderStack => s.top.position) AgreesBelow p

theorem confined_onTop {α : Type} {p : Decoder α} (hp : p.Confined 4) : Confined (onTop p) :=
  hp.zoom (zooms_onTop p) fun _ _ _ => Iff.rfl

theorem confined_onTopPooling {α : Type} {p : NotesDecoder α} (hp : p.Confined 4) :
    Confined (onTopPooling p) := by
  refine hp.zoom (zooms_onTopPooling p) fun e s s' => ⟨?_, ?_⟩
  · rintro ⟨r, hr, rfl⟩
    exact ⟨⟨r, s.symbols⟩, ⟨r, hr, rfl⟩, rfl⟩
  · rintro ⟨_, ⟨r, hr, rfl⟩, rfl⟩
    exact ⟨r, hr, rfl⟩

theorem confined_perform {op : Operation} (henter : op ≠ .enter) (hleave : op ≠ .leave) :
    Confined (perform op) := by
  cases op with
  | word => exact (confined_onTop Decoder.confined_word).map _
  | signedWord => exact (confined_onTop (Decoder.confined_word.map _)).map _
  | long => exact (confined_onTop Decoder.confined_long).map _
  | string => exact (confined_onTop Decoder.confined_string).map _
  | nextTag =>
    refine confined_get_bind (fun s => confined_pure _) ?_
    rintro e s _ ⟨r, hr, rfl⟩ he
    exact congrArg (fun tag => pure (Value.peeked tag)) (hr.nextTag_eq he)
  | enter => exact absurd rfl henter
  | leave => exact absurd rfl hleave
  | notesFile => exact (confined_onTopPooling NotesDecoder.confined_notesFile).map _
  | dataFile => exact (confined_onTop Decoder.confined_dataFile).map _

/-- The header of a record tells whether there is one, and where it ends. -/
theorem record_agrees {r r' : Reader} (h : Reader.AgreesBelow (r.position + 8) r r') :
    (∃ e t t', Decoder.record r = .error e t ∧ Decoder.record r' = .error e t') ∨
    ∃ tag body body' t t', Decoder.record r = .ok (tag, body) t ∧
      Decoder.record r' = .ok (tag, body') t' ∧ t'.position = t.position := by
  have hword : Decoder.Confined 0 Decoder.word := Decoder.confined_word
  cases hfirst : Decoder.word r with
  | error e t =>
    obtain ⟨-, -, rfl⟩ := Decoder.word_eq_error_iff.1 hfirst
    obtain ⟨t', hfirst', -⟩ := hword.failure _ _ r' e t h hfirst (by omega)
    exact .inl ⟨e, t, t', Decoder.record_of_word_eq_error hfirst,
      Decoder.record_of_word_eq_error hfirst'⟩
  | ok tag r₁ =>
    have hposition₁ := Decoder.position_word hfirst
    obtain ⟨r₁', hfirst', h₁⟩ := hword.value _ _ r' tag r₁ h hfirst (by omega)
    cases hsecond : Decoder.word r₁ with
    | error e t =>
      obtain ⟨-, -, rfl⟩ := Decoder.word_eq_error_iff.1 hsecond
      obtain ⟨t', hsecond', -⟩ := hword.failure _ _ r₁' e t h₁ hsecond (by omega)
      exact .inl ⟨e, t, t', Decoder.record_of_second_eq_error hfirst hsecond,
        Decoder.record_of_second_eq_error hfirst' hsecond'⟩
    | ok length r₂ =>
      have hposition₂ := Decoder.position_word hsecond
      obtain ⟨r₂', hsecond', h₂⟩ := hword.value _ _ r₁' length r₂ h₁ hsecond (by omega)
      rw [Decoder.record_of_words hfirst hsecond, Decoder.record_of_words hfirst' hsecond',
        h₂.remaining_eq, h₂.position_eq]
      split
      · exact .inr ⟨⟨tag⟩, _, _, _, _, rfl, rfl, congrArg (· + _) h₂.position_eq⟩
      · exact .inl ⟨_, _, _, rfl, rfl⟩

theorem answer_enter_eq {s' : ReaderStack} (h : AgreesBelow (s.top.position + 8) s s') :
    answer .enter s' = answer .enter s := by
  obtain ⟨r, hr, rfl⟩ := h
  simp only [answer, perform, run_bind, onTop]
  obtain ⟨e, t, t', hrecord, hrecord'⟩ | ⟨tag, body, body', t, t', hrecord, hrecord', hposition⟩ :=
    record_agrees hr
  · simp only [hrecord, hrecord']
  · simp only [hrecord, hrecord']
    exact congrArg (fun n => Except.ok (Value.entered tag n)) hposition

theorem agreesBelow_of_same {r : Reader} {bytes' : List UInt8} (e : ℕ)
    (hlength : bytes'.length = r.unread.length)
    (hsame : ∀ i, r.position + i < min e r.stop → bytes'[i]? = r.unread[i]?) :
    Reader.AgreesBelow e r { r with unread := bytes' } := by
  refine ⟨bytes', rfl, hlength, List.ext_getElem? fun i => ?_⟩
  rw [List.getElem?_take, List.getElem?_take]
  split
  · by_cases hi : i < r.unread.length
    · refine hsame i (lt_min (by omega) ?_)
      rw [Reader.stop, Reader.remaining]
      omega
    · rw [List.getElem?_eq_none (by omega), List.getElem?_eq_none (by omega)]
  · rfl

/-- How an operation ends depends on nothing but the bytes that it looks at. -/
theorem answer_eq {bytes' : List UInt8} (hlength : bytes'.length = s.top.unread.length)
    (hsame : ∀ i, s.top.position + i ∈ decodes op s → bytes'[i]? = s.top.unread[i]?) :
    answer op { s with top := { s.top with unread := bytes' } } = answer op s := by
  have hagrees (e : ℕ) (hdecodes : Set.Ico s.top.position (min e s.top.stop) ⊆ decodes op s) :
      AgreesBelow e s { s with top := { s.top with unread := bytes' } } :=
    ⟨_, agreesBelow_of_same e hlength fun i hi =>
      hsame i (hdecodes ⟨Nat.le_add_right _ _, hi⟩), rfl⟩
  by_cases henter : op = .enter
  · subst henter
    exact answer_enter_eq (hagrees _ subset_rfl)
  by_cases hleave : op = .leave
  · subst hleave
    obtain ⟨top, _ | ⟨r, below⟩, symbols⟩ := s <;> rfl
  have hend := hagrees ((s.after op).top.position + 4) (by
    unfold decodes
    split
    · contradiction
    · contradiction
    · exact subset_rfl)
  have hconfined := confined_perform henter hleave
  rw [after] at hend
  rw [answer, answer]
  cases hperform : perform op s with
  | ok value t =>
    rw [hperform] at hend
    obtain ⟨t', hperform', -⟩ := hconfined.value _ s _ value t hend hperform (Nat.le_refl _)
    rw [hperform']
  | error e t =>
    rw [hperform] at hend
    obtain ⟨t', hperform', -⟩ := hconfined.failure _ s _ e t hend hperform (Nat.le_refl _)
    rw [hperform']

/-- What an operation looks at is passed by the readers that it makes, and no record that is
entered later has its body there. -/
theorem exists_frame_of_mem_decodes {x : ℕ} (h : x ∈ decodes op s) : ∃ higher r,
    (s.after op).readers = higher ++ r :: s.below ∧ s.top.Advances r ∧ x < r.position + 8 ∧
      ∀ b ∈ higher, x < b.position := by
  have hmoves := moves_after s op
  unfold decodes at h
  split at h
  case h_1 =>
    have hx := lt_of_lt_of_le h.2 (min_le_left _ _)
    generalize s.after .enter = t at hmoves
    cases hmoves with
    | read _ moved _ =>
      have hx' := Nat.lt_of_lt_of_le hx (Nat.add_le_add_right moved.position_le 8)
      exact ⟨[], _, rfl, moved, hx', by simp⟩
    | @enter tag length body rest unread fits =>
      refine ⟨[_], _, rfl, ⟨_, Reader.le_remaining_of_record unread, rfl⟩, ?_,
        List.forall_mem_singleton.2 hx⟩
      rw [Reader.position_skip]
      omega
  case h_2 => exact h.elim
  case h_3 hleave _ =>
    have hx := lt_of_lt_of_le h.2 (min_le_left _ _)
    generalize s.after op = t at hmoves hx
    cases hmoves with
    | @read _ r _ moved _ =>
      have hr : x < r.position + 4 := hx
      exact ⟨[], r, rfl, moved, by omega, by simp⟩
    | enter => contradiction
    | leave => contradiction
    | stay => contradiction

/-- How the readers of a file lie in the file after any operations. -/
structure StaysInside (o : ByteOrder) (bytes : List UInt8) (s : ReaderStack) : Prop where
  /-- The unread bytes of every reader are the bytes of the file from its position to its end. -/
  shows : ∀ ops, ∀ r ∈ (s.run ops).readers, r.StretchOf o bytes
  /-- The stretch of a reader ends at or before the position of every reader below it. -/
  nested : ∀ ops, (s.run ops).readers.Pairwise fun child parent => child.stop ≤ parent.position
  /-- A reader never goes back, and its end stays where it is. -/
  advances : ∀ ops later higher r lower, (s.run ops).readers = higher ++ r :: lower →
    Outlives lower.length (s.run ops) later →
    ∃ higher' r', (s.run (ops ++ later)).readers = higher' ++ r' :: lower ∧
      r.position ≤ r'.position ∧ r'.stop = r.stop
  /-- The reader of a record covers exactly its body. -/
  entered : ∀ ops tag position t, perform .enter (s.run ops) = .ok (.entered tag position) t →
    ∃ n : UInt32, (bytes.drop (s.run ops).top.position).take 8 =
        Writer.word o tag.word ++ Writer.word o n ∧
      t.top.position = (s.run ops).top.position + 8 ∧
      t.top.stop = (s.run ops).top.position + 8 + 4 * n.toNat ∧
      t.below = (s.run ops).top.skip (8 + 4 * n.toNat) :: (s.run ops).below
  /-- How an operation ends depends on nothing but the bytes that it looks at. -/
  depends : ∀ ops op bytes', bytes'.length = (s.run ops).top.unread.length →
    (∀ i, (s.run ops).top.position + i ∈ decodes op (s.run ops) →
      bytes'[i]? = (s.run ops).top.unread[i]?) →
    answer op { s.run ops with top := { (s.run ops).top with unread := bytes' } } =
      answer op (s.run ops)
  /-- Operations that look at the same byte act on the same reader. -/
  apart : ∀ ops op later op' x, x ∈ decodes op (s.run ops) →
    x ∈ decodes op' (s.run (ops ++ op :: later)) →
    (s.run (ops ++ op :: later)).below = (s.run ops).below ∧
      Outlives (s.run ops).below.length (s.run ops) (op :: later)

theorem Lies.of_enter (hs : Lies o bytes s) {tag : Tag} {position : ℕ}
    (h : perform .enter s = .ok (.entered tag position) t) : ∃ n : UInt32,
      (bytes.drop s.top.position).take 8 = Writer.word o tag.word ++ Writer.word o n ∧
      t.top.position = s.top.position + 8 ∧ t.top.stop = s.top.position + 8 + 4 * n.toNat ∧
      t.below = s.top.skip (8 + 4 * n.toNat) :: s.below := by
  obtain ⟨⟨tag, body⟩, s', hrecord, h⟩ := bind_eq_ok_iff.1 h
  obtain ⟨r, hr, rfl⟩ := (zooms_onTop _).exists_of_ok hrecord
  cases h
  have htop := hs.stretch s.top List.mem_cons_self
  obtain ⟨length, chunk, rest, hunread, hfits, rfl, rfl⟩ := Decoder.exists_of_record hr
  have hremaining := Reader.le_remaining_of_record hunread
  have hheader : (bytes.drop s.top.position).take 8 = s.top.unread.take 8 := by
    rw [htop.unread, List.take_take, min_eq_left (by omega)]
  refine ⟨length, ?_, rfl, ?_, ?_⟩
  · rw [hheader, hunread, htop.order, List.append_assoc,
      List.take_left' (by simp only [List.length_append, Writer.length_word])]
  · change s.top.position + 8 + chunk.length = _
    rw [hfits]
  · rw [← hfits]
    rfl

theorem Lies.apart (hs : Lies o bytes s) {op' : Operation} {x : ℕ} (hx : x ∈ decodes op s)
    (hx' : x ∈ decodes op' (s.run (op :: later))) :
    (s.run (op :: later)).below = s.below ∧ Outlives s.below.length s (op :: later) := by
  obtain ⟨higher, r, hafter, hr, hxr, hhigher⟩ := exists_frame_of_mem_decodes hx
  have hx' : ((s.after op).run later).top.position ≤ x := (mem_decodes hx').1
  by_cases hlater : Outlives s.below.length (s.after op) later
  · refine ⟨?_, Nat.lt_succ_self _, hlater⟩
    obtain ⟨higher', r', hend, -, hhigher'⟩ := hlater.frame hafter
    cases higher' with
    | nil => exact (List.cons.inj hend).2
    | cons top higher' =>
      obtain ⟨rfl, -⟩ := List.cons.inj hend
      obtain ⟨b, hb, hle⟩ | hle := hhigher' _ List.mem_cons_self
      · have := hhigher b hb
        omega
      · omega
  · have hstop := (hs.moves (moves_after s op)).stop_le_of_not_outlives hafter hlater
    have hend := hstop _ List.mem_cons_self
    rw [hr.stop_eq] at hend
    have hxs := (mem_decodes hx).2
    exact absurd (hend.trans hx') (Nat.not_le.2 hxs)

theorem run_append (s : ReaderStack) (ops later : List Operation) :
    s.run (ops ++ later) = (s.run ops).run later :=
  List.foldl_append

/-- Whatever is done with the reader of a file, all readers stay inside their records. -/
theorem staysInside {r : Reader} (h : Reader.ofBytes bytes = .ok r) :
    StaysInside r.order bytes (.ofReader r) := by
  have hlies (ops : List Operation) := (lies_ofReader (Reader.stretchOf_ofBytes h)).run ops
  exact {
    shows := fun ops => (hlies ops).stretch
    nested := fun ops => (hlies ops).nested
    advances := fun ops later higher r lower hreaders houtlives => by
      obtain ⟨higher', r', hend, hr, -⟩ := houtlives.frame hreaders
      rw [run_append]
      exact ⟨higher', r', hend, hr.position_le, hr.stop_eq⟩
    entered := fun ops _ _ _ => (hlies ops).of_enter
    depends := fun _ _ _ => answer_eq
    apart := fun ops op later op' x hx hx' => by
      rw [run_append] at hx' ⊢
      exact (hlies ops).apart hx hx' }

/-- A file with a record in a record. -/
def sampleNested : List UInt8 :=
  Writer.header .big .notes ⟨0⟩ 5 ++
    Writer.record .big Tag.lines (Writer.record .big Tag.arcs (Writer.words .big [9, 10]))

/-- Both records are entered and a word is read. -/
theorem staysInside_sampleNested : ∃ r, Reader.ofBytes sampleNested = .ok r ∧
    StaysInside .big sampleNested (.ofReader r) ∧
    (run (.ofReader r) [.enter, .enter, .word]).readers.map (fun r => (r.position, r.stop)) =
      [(32, 36), (36, 36), (36, 36)] := by
  have hread := Reader.ofBytes_header .big .notes ⟨0⟩ 5
    (Writer.record .big Tag.lines (Writer.record .big Tag.arcs (Writer.words .big [9, 10])))
  exact ⟨_, hread, staysInside hread, by decide⟩

end ReaderStack
end CoverageFlow
