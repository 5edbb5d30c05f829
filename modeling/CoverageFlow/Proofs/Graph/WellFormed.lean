import CoverageFlow.Proofs.Graph.Build

/-!
# Records that describe a flow graph

The records of a function need not describe a flow graph. They may mention blocks that the function
does not have, and the graph may lack an entry or an exit, or have arcs into the one or out of the
other. The graph of a function is built exactly if none of this is the case.

Arcs and lines are added before anything is said about entry and exit. So a block out of range is
found first, wherever it is mentioned: as the source of a record without arcs, too.

## Main definitions

* `FunctionRecord.WellFormed`: the records describe a flow graph.
* `FunctionRecord.Broken`: the first thing that is wrong with them.
* `FunctionRecord.statedArcs`: the arcs that the records list.
* `Requires`: a computation that fails for blocks out of range only, and when it does.

## Main results

* `Draft.stated_of_ofRecords`: the arcs of a draft are those that the records list.
* `FunctionGraph.ofRecord_wellFormed`: which records a graph is built from.
-/

namespace CoverageFlow

variable {n : ℕ} {φ α β : Type}

/-! ### What records state -/

/-- The attributes that a notes file states, without the derived ones. -/
def ArcAttributes.stated (attr : ArcAttributes) : ArcAttributes where
  onTree := attr.onTree
  fake := attr.fake
  fallThrough := attr.fallThrough

/-- An arc as a notes file states it. -/
@[ext]
structure StatedArc where
  source : ℕ
  target : ℕ
  attr : ArcAttributes

/-- The arcs that a record lists. -/
def ArcsRecord.stated (r : ArcsRecord) : List StatedArc :=
  r.arcs.map fun a => ⟨r.source.val.toNat, a.target.val.toNat, .ofFlags a.flags⟩

namespace FunctionRecord

/-- The arcs that the records of a function list, in their order. -/
def statedArcs (record : FunctionRecord φ) : List StatedArc :=
  record.arcs.flatMap ArcsRecord.stated

/-- Every block that the records of a function mention is one of its blocks. -/
structure InRange (record : FunctionRecord φ) : Prop where
  /-- A record of arcs has a source even if it lists no arc. -/
  source : ∀ r ∈ record.arcs, r.source.val.toNat < record.blocks.length
  target : ∀ r ∈ record.arcs, ∀ a ∈ r.arcs, a.target.val.toNat < record.blocks.length
  lines : ∀ r ∈ record.lines, r.block.val.toNat < record.blocks.length

/-- The records of a function describe a flow graph. -/
structure WellFormed (record : FunctionRecord φ) : Prop extends InRange record where
  two_le : 2 ≤ record.blocks.length
  /-- No arc enters the first block. -/
  entry : ¬ ∃ r ∈ record.arcs, ∃ a ∈ r.arcs, a.target.val.toNat = 0
  /-- No arc leaves the last block. -/
  exit : ¬ ∃ r ∈ record.arcs, r.arcs ≠ [] ∧ r.source.val.toNat = record.blocks.length - 1

/-- The first thing that is wrong with the records of a function. -/
inductive Broken (record : FunctionRecord φ) : GraphDefect → Prop
  | blockOutOfRange (hrange : ¬ record.InRange) : Broken record .blockOutOfRange
  | lacksEntryOrExit (hrange : record.InRange) (hsize : record.blocks.length < 2) :
      Broken record .lacksEntryOrExit
  | arcToEntry (hrange : record.InRange) (hsize : 2 ≤ record.blocks.length)
      (hentry : ∃ r ∈ record.arcs, ∃ a ∈ r.arcs, a.target.val.toNat = 0) :
      Broken record .arcToEntry
  | arcFromExit (hrange : record.InRange) (hsize : 2 ≤ record.blocks.length)
      (hentry : ¬ ∃ r ∈ record.arcs, ∃ a ∈ r.arcs, a.target.val.toNat = 0)
      (hexit : ∃ r ∈ record.arcs, r.arcs ≠ [] ∧ r.source.val.toNat = record.blocks.length - 1) :
      Broken record .arcFromExit

variable {record : FunctionRecord φ}

theorem wellFormed_or_broken (record : FunctionRecord φ) :
    record.WellFormed ∨ ∃ defect, record.Broken defect := by
  by_cases hrange : record.InRange
  swap
  · exact .inr ⟨_, .blockOutOfRange hrange⟩
  obtain hsize | hsize := Nat.lt_or_ge record.blocks.length 2
  · exact .inr ⟨_, .lacksEntryOrExit hrange hsize⟩
  by_cases hentry : ∃ r ∈ record.arcs, ∃ a ∈ r.arcs, a.target.val.toNat = 0
  · exact .inr ⟨_, .arcToEntry hrange hsize hentry⟩
  by_cases hexit :
    ∃ r ∈ record.arcs, r.arcs ≠ [] ∧ r.source.val.toNat = record.blocks.length - 1
  · exact .inr ⟨_, .arcFromExit hrange hsize hentry hexit⟩
  · exact .inl ⟨hrange, hsize, hentry, hexit⟩

/-- Some arc of the records has a property exactly if some record has one that has it. -/
theorem exists_mem_statedArcs {P : StatedArc → Prop} : (∃ x ∈ record.statedArcs, P x) ↔
    ∃ r ∈ record.arcs, ∃ a ∈ r.arcs,
      P ⟨r.source.val.toNat, a.target.val.toNat, .ofFlags a.flags⟩ := by
  simp only [statedArcs, ArcsRecord.stated, List.mem_flatMap, List.mem_map]
  constructor
  · rintro ⟨_, ⟨r, hr, a, ha, rfl⟩, hP⟩
    exact ⟨r, hr, a, ha, hP⟩
  · rintro ⟨r, hr, a, ha, hP⟩
    exact ⟨_, ⟨r, hr, a, ha, rfl⟩, hP⟩

end FunctionRecord

/-! ### Blocks out of range -/

/-- A computation succeeds if a condition holds, and otherwise finds a block out of range. -/
structure Requires (x : Except GraphDefect α) (P : Prop) : Prop where
  ok : P → ∃ a, x = .ok a
  error : ¬ P → x = .error .blockOutOfRange

theorem requires_pure (a : α) : Requires (pure a) True where
  ok _ := ⟨a, rfl⟩
  error h := absurd trivial h

theorem Requires.congr {x : Except GraphDefect α} {P Q : Prop} (hx : Requires x P) (h : P ↔ Q) :
    Requires x Q where
  ok hQ := hx.ok (h.2 hQ)
  error hQ := hx.error (mt h.1 hQ)

/-- What two computations require, one after the other, is required by both together. -/
theorem Requires.bind {x : Except GraphDefect α} {f : α → Except GraphDefect β} {P Q : Prop}
    (hx : Requires x P) (hf : ∀ a, Requires (f a) Q) : Requires (x >>= f) (P ∧ Q) where
  ok := by
    rintro ⟨hP, hQ⟩
    obtain ⟨a, ha⟩ := hx.ok hP
    obtain ⟨b, hb⟩ := (hf a).ok hQ
    exact ⟨b, bind_eq_ok.2 ⟨a, ha, hb⟩⟩
  error h := by
    by_cases hP : P
    · obtain ⟨a, ha⟩ := hx.ok hP
      rw [ha]
      exact (hf a).error fun hQ => h ⟨hP, hQ⟩
    · rw [hx.error hP]
      rfl

/-- What each step requires of its element, the loop requires of all elements. -/
theorem Requires.foldlM {f : β → α → Except GraphDefect β} {P : α → Prop}
    (hf : ∀ b a, Requires (f b a) (P a)) (as : List α) (b : β) :
    Requires (as.foldlM f b) (∀ a ∈ as, P a) := by
  induction as generalizing b with
  | nil => exact (requires_pure b).congr (by simp)
  | cons a as ih =>
    rw [List.foldlM_cons]
    exact ((hf b a).bind ih).congr List.forall_mem_cons.symm

namespace Draft

theorem requires_block (n : ℕ) (i : BlockIndex) : Requires (block n i) (i.val.toNat < n) where
  ok h := ⟨⟨i.val.toNat, h⟩, dif_pos h⟩
  error h := dif_neg h

theorem requires_connectAll (draft : Draft n) (r : ArcsRecord) :
    Requires (draft.connectAll r)
      (r.source.val.toNat < n ∧ ∀ a ∈ r.arcs, a.target.val.toNat < n) := by
  refine (requires_block n r.source).bind fun source => Requires.foldlM (fun draft a => ?_) _ _
  exact ((requires_block n a.target).bind fun target => requires_pure _).congr
    (and_iff_left trivial)

theorem requires_coverLines (file : Symbol) (draft : Draft n) (r : LinesRecord Symbol) :
    Requires (draft.coverLines file r) (r.block.val.toNat < n) :=
  ((requires_block n r.block).bind fun _ => requires_pure _).congr (and_iff_left trivial)

/-- The draft of a function, with all its arcs and lines. -/
def ofRecords (record : FunctionRecord Symbol) :
    Except GraphDefect (Draft record.blocks.length) := do
  let draft ← record.arcs.foldlM connectAll (ofBlocks record.blocks)
  record.lines.foldlM (coverLines record.source) draft

theorem requires_ofRecords (record : FunctionRecord Symbol) :
    Requires (ofRecords record) record.InRange := by
  refine ((Requires.foldlM requires_connectAll record.arcs _).bind fun connected =>
    Requires.foldlM (requires_coverLines record.source) record.lines connected).congr ?_
  constructor
  · rintro ⟨harcs, hlines⟩
    exact ⟨fun r hr => (harcs r hr).1, fun r hr => (harcs r hr).2, hlines⟩
  · rintro ⟨hsource, htarget, hlines⟩
    exact ⟨fun r hr => ⟨hsource r hr, htarget r hr⟩, hlines⟩

end Draft

/-! ### The arcs of a draft -/

/-- An arc without its derived attributes. -/
def Arc.stated (a : Arc n) : StatedArc :=
  ⟨a.source, a.target, a.attr.stated⟩

/-- What every step appends, the loop appends in the order of the list. -/
theorem foldlM_eq_ok_append {ε γ : Type} {f : β → α → Except ε β} {m : β → List γ} {g : α → List γ}
    (hf : ∀ b a b', f b a = .ok b' → m b' = m b ++ g a) {as : List α} {b b' : β}
    (h : as.foldlM f b = .ok b') : m b' = m b ++ as.flatMap g := by
  induction as generalizing b with
  | nil =>
    cases h
    exact (List.append_nil _).symm
  | cons a as ih =>
    rw [List.foldlM_cons] at h
    obtain ⟨b₁, hfirst, hrest⟩ := bind_eq_ok.1 h
    rw [ih hrest, hf b a b₁ hfirst, List.append_assoc, List.flatMap_cons]

namespace Draft

/-- The arcs of a draft without their derived attributes. -/
def stated (draft : Draft n) : List StatedArc :=
  draft.arcs.toList.map Arc.stated

theorem stated_connect (draft : Draft n) (source target : Fin n) (attr : ArcAttributes) :
    (draft.connect source target attr).stated =
      draft.stated ++ [⟨source, target, attr.stated⟩] := by
  rw [connect]
  split
  · simp [stated, Arc.stated]
  · split <;> simp [stated, Arc.stated, ArcAttributes.stated]

theorem stated_connectAll {draft draft' : Draft n} {r : ArcsRecord}
    (h : draft.connectAll r = .ok draft') : draft'.stated = draft.stated ++ r.stated := by
  obtain ⟨source, hsource, h⟩ := bind_eq_ok.1 h
  rw [ArcsRecord.stated, List.map_eq_flatMap]
  refine foldlM_eq_ok_append (m := stated) (fun draft a draft' harc => ?_) h
  obtain ⟨target, htarget, harc⟩ := bind_eq_ok.1 harc
  cases harc
  rw [stated_connect, block_eq_ok_iff.1 hsource, block_eq_ok_iff.1 htarget]
  rfl

theorem arcs_coverLines {file : Symbol} {draft draft' : Draft n} {r : LinesRecord Symbol}
    (h : draft.coverLines file r = .ok draft') : draft'.arcs = draft.arcs := by
  obtain ⟨b, -, h⟩ := bind_eq_ok.1 h
  cases h
  rfl

/-- The arcs of a draft are those that the records list. -/
theorem stated_of_ofRecords {record : FunctionRecord Symbol} {draft : Draft record.blocks.length}
    (h : ofRecords record = .ok draft) : draft.stated = record.statedArcs := by
  obtain ⟨connected, hconnected, hcovered⟩ := bind_eq_ok.1 h
  have hlines := foldlM_eq_ok_append (m := stated) (g := fun _ => [])
    (fun draft r draft' hr => by rw [stated, arcs_coverLines hr, List.append_nil]; rfl) hcovered
  have harcs := foldlM_eq_ok_append (f := connectAll) (fun _ _ _ => stated_connectAll) hconnected
  rw [List.flatMap_eq_nil_iff.2 fun _ _ => rfl, List.append_nil] at hlines
  rw [hlines, harcs]
  rfl

/-! ### Entry and exit of a draft -/

variable {record : FunctionRecord Symbol} {draft : Draft record.blocks.length}

theorem exists_mem_arcs (h : ofRecords record = .ok draft) {P : StatedArc → Prop} :
    (∃ a ∈ draft.arcs, P a.stated) ↔ ∃ r ∈ record.arcs, ∃ a ∈ r.arcs,
      P ⟨r.source.val.toNat, a.target.val.toNat, .ofFlags a.flags⟩ := by
  rw [← FunctionRecord.exists_mem_statedArcs, ← stated_of_ofRecords h]
  simp [stated]

theorem enters_iff (h : ofRecords record = .ok draft) :
    (draft.arcs.any fun a => a.target.val = 0) = true ↔
      ∃ r ∈ record.arcs, ∃ a ∈ r.arcs, a.target.val.toNat = 0 := by
  simp only [Array.any_eq_true', decide_eq_true_eq]
  exact exists_mem_arcs h (P := fun x => x.target = 0)

theorem leaves_iff (h : ofRecords record = .ok draft) :
    (draft.arcs.any fun a => a.source.val = record.blocks.length - 1) = true ↔
      ∃ r ∈ record.arcs, r.arcs ≠ [] ∧ r.source.val.toNat = record.blocks.length - 1 := by
  have hleaves := exists_mem_arcs h (P := fun x => x.source = record.blocks.length - 1)
  simp only [Array.any_eq_true', decide_eq_true_eq]
  refine hleaves.trans (exists_congr fun r => and_congr_right fun _ => ?_)
  rw [ne_eq, List.eq_nil_iff_forall_not_mem, not_forall_not, ← exists_and_right]

end Draft

/-! ### Building a graph -/

namespace FunctionGraph

variable {record : FunctionRecord Symbol} {draft : Draft record.blocks.length}
  {defect : GraphDefect}

/-- Entry and exit are looked at when the draft has all its arcs and lines. -/
theorem build_eq (record : FunctionRecord Symbol) : build record = Draft.ofRecords record >>=
    fun draft => draft.checkEnds >>= fun ends => .ok (ofDraft record draft.finish ends.down) :=
  (bind_assoc _ _ _).symm

theorem build_of_wellFormed (h : record.WellFormed) : ∃ f, build record = .ok f := by
  obtain ⟨draft, hdraft⟩ := (Draft.requires_ofRecords record).ok h.toInRange
  refine ⟨ofDraft record draft.finish h.two_le, ?_⟩
  rw [build_eq, hdraft]
  refine bind_eq_ok.2 ⟨draft, rfl, bind_eq_ok.2 ⟨⟨h.two_le⟩, ?_, rfl⟩⟩
  rw [Draft.checkEnds, dif_pos h.two_le, if_neg (mt (Draft.enters_iff hdraft).1 h.entry),
    if_neg (mt (Draft.leaves_iff hdraft).1 h.exit)]

/-- A draft with no proper entry and exit is no graph. -/
theorem build_of_checkEnds (hdraft : Draft.ofRecords record = .ok draft)
    (hends : draft.checkEnds = .error defect) : build record = .error defect := by
  rw [build_eq, hdraft]
  change draft.checkEnds >>= _ = _
  rw [hends]
  rfl

/-- There is no graph of a broken function, and what is wrong first is told. -/
theorem build_of_broken (h : record.Broken defect) : build record = .error defect := by
  cases h with
  | blockOutOfRange hrange =>
    rw [build_eq, (Draft.requires_ofRecords record).error hrange]
    rfl
  | lacksEntryOrExit hrange hsize =>
    obtain ⟨draft, hdraft⟩ := (Draft.requires_ofRecords record).ok hrange
    refine build_of_checkEnds hdraft ?_
    rw [Draft.checkEnds, dif_neg hsize.not_ge]
  | arcToEntry hrange hsize hentry =>
    obtain ⟨draft, hdraft⟩ := (Draft.requires_ofRecords record).ok hrange
    refine build_of_checkEnds hdraft ?_
    rw [Draft.checkEnds, dif_pos hsize, if_pos ((Draft.enters_iff hdraft).2 hentry)]
  | arcFromExit hrange hsize hentry hexit =>
    obtain ⟨draft, hdraft⟩ := (Draft.requires_ofRecords record).ok hrange
    refine build_of_checkEnds hdraft ?_
    rw [Draft.checkEnds, dif_pos hsize, if_neg (mt (Draft.enters_iff hdraft).1 hentry),
      if_pos ((Draft.leaves_iff hdraft).2 hexit)]

/-- A graph is built exactly from the records that describe one, and every other function is
refused by name, with the first thing that is wrong with it. The number of the last block is never
asked for if there is no block, since no record of arcs finds its source then. -/
theorem ofRecord_wellFormed (record : FunctionRecord Symbol) :
    ((∃ f, ofRecord record = .ok f) ↔ record.WellFormed) ∧
      (∀ e, ofRecord record = .error e ↔
        ∃ defect, record.Broken defect ∧ e = .malformedGraph record.name defect) ∧
      (record.blocks = [] →
        ∀ r, Draft.block record.blocks.length r = .error .blockOutOfRange) := by
  have hbroken {defect : GraphDefect} (h : record.Broken defect) :
      ofRecord record = .error (.malformedGraph record.name defect) := by
    rw [ofRecord, build_of_broken h]
    rfl
  have hwell (h : record.WellFormed) : ∃ f, ofRecord record = .ok f := by
    obtain ⟨f, hf⟩ := build_of_wellFormed h
    exact ⟨f, mapError_eq_ok.2 hf⟩
  refine ⟨⟨?_, hwell⟩, fun e => ⟨fun he => ?_, ?_⟩, fun hempty r => ?_⟩
  · rintro ⟨f, hf⟩
    obtain h | ⟨defect, h⟩ := record.wellFormed_or_broken
    · exact h
    · rw [hbroken h] at hf
      cases hf
  · obtain h | ⟨defect, h⟩ := record.wellFormed_or_broken
    · obtain ⟨f, hf⟩ := hwell h
      rw [hf] at he
      cases he
    · rw [hbroken h] at he
      cases he
      exact ⟨defect, h, rfl⟩
  · rintro ⟨defect, h, rfl⟩
    exact hbroken h
  · rw [hempty]
    exact dif_neg (Nat.not_lt_zero _)

/-- A function without blocks, with a record that lists no arc. -/
def blocklessRecord : FunctionRecord Symbol where
  ident := ⟨1⟩
  checksum := 0
  name := "f"
  source := ⟨0⟩
  line := 1
  blocks := []
  arcs := [⟨⟨0⟩, []⟩]
  lines := []

/-- The source of the record is told to be out of range, rather than the missing entry. -/
theorem ofRecord_blocklessRecord :
    blocklessRecord.blocks = [] ∧ Draft.block 0 ⟨0⟩ = .error .blockOutOfRange ∧
      ¬ blocklessRecord.WellFormed ∧ blocklessRecord.Broken .blockOutOfRange := by
  obtain ⟨hok, herror, hblock⟩ := ofRecord_wellFormed blocklessRecord
  have hbuild : ofRecord blocklessRecord = .error (.malformedGraph "f" .blockOutOfRange) := by cbv
  refine ⟨rfl, hblock rfl ⟨0⟩, fun hwell => ?_, ?_⟩
  · obtain ⟨f, hf⟩ := hok.2 hwell
    rw [hbuild] at hf
    cases hf
  · obtain ⟨defect, hbroken, he⟩ := (herror _).1 hbuild
    cases he
    exact hbroken

end FunctionGraph

end CoverageFlow
