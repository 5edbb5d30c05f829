import CoverageFlow.Proofs.Graph.WellFormed

/-!
# Derived attributes

Attributes are derived while arcs are added one by one, and from tallies once all arcs are there.
Whatever the order of the records, and however the arcs of a block are spread over them, the
attributes say what they are meant to say about the finished graph. This covers loops, parallel
arcs, and fake arcs that fall through or lead from the entry to the exit.

## Main definitions

* `FunctionGraph.Lists`: a graph has the arcs that the records list, and counts them.
* `FunctionGraph.Classified`: the derived attributes, told by the arcs of the graph.
* `Draft.Marked`, `Draft.Finished`: what attributes tell before and after the last pass.

## Main results

* `FunctionGraph.classified_of_ofRecord`: the graph of a function lists the arcs of its records, and
  its attributes are derived from them.
-/

namespace CoverageFlow

variable {n m : ℕ}

/-- Only one value has a property if every index with the property is that of the value. -/
theorem countP_toList_eq_one_iff {α : Type} {v : Vector α n} {p : α → Bool} {i : Fin n}
    (hi : p (v.get i) = true) :
    v.toList.countP p = 1 ↔ ∀ j, p (v.get j) = true → j = i := by
  rw [countP_toList_eq_card, Finset.card_eq_one]
  constructor
  · rintro ⟨k, hk⟩ j hj
    have hmem {l : Fin n} (hl : p (v.get l) = true) : l = k :=
      Finset.mem_singleton.1 (hk ▸ (Finset.mem_filter_univ l).2 hl)
    exact (hmem hj).trans (hmem hi).symm
  · refine fun h => ⟨i, Finset.ext fun j => ?_⟩
    rw [Finset.mem_filter_univ, Finset.mem_singleton]
    exact ⟨h j, fun hj => hj ▸ hi⟩

namespace Draft

/-! ### Attributes while arcs are added -/

/-- The attributes that fake arcs bring about. -/
structure Marked (draft : Draft n) : Prop where
  callNonReturn : ∀ a ∈ draft.arcs,
    a.attr.callNonReturn = true ↔ a.attr.fake = true ∧ a.source.val ≠ 0
  nonlocalReturn : ∀ a ∈ draft.arcs,
    a.attr.nonlocalReturn = true ↔ a.attr.fake = true ∧ a.source.val = 0
  callSite : ∀ b, (draft.blocks.get b).attr.callSite = true ↔
    b.val ≠ 0 ∧ ∃ a ∈ draft.arcs, a.attr.fake = true ∧ a.source = b
  /-- The block is the target of a return past the caller. -/
  landing : ∀ b, (draft.blocks.get b).attr.nonlocalReturn = true ↔
    ∃ a ∈ draft.arcs, a.attr.fake = true ∧ a.source.val = 0 ∧ a.target = b

/-- No call return is marked before all arcs are known. -/
structure Connected (draft : Draft n) : Prop extends Marked draft where
  callReturn : ∀ b, (draft.blocks.get b).attr.callReturn = false

theorem attr_mark (change : BlockAttributes → BlockAttributes) (blocks : Vector Block n)
    (b b' : Fin n) : ((mark change blocks b).get b').attr =
      if b = b' then change (blocks.get b').attr else (blocks.get b').attr := by
  rw [mark, get_set]
  split
  · next h => rw [← h]
  · rfl

theorem connected_ofBlocks (flags : List UInt32) : (ofBlocks flags).Connected := by
  have hattr (b : Fin flags.length) : ((ofBlocks flags).blocks.get b).attr = {} := by
    rw [get_eq_getElem]
    simp [ofBlocks]
  have hnone (P : Arc flags.length → Prop) : ¬ ∃ a ∈ (ofBlocks flags).arcs, P a := by
    rintro ⟨a, ha, -⟩
    exact Array.not_mem_empty a ha
  exact {
    callNonReturn := fun a ha => absurd ha (Array.not_mem_empty a)
    nonlocalReturn := fun a ha => absurd ha (Array.not_mem_empty a)
    callSite := fun b => iff_of_false (by simp [hattr]) fun h => hnone _ h.2
    landing := fun b => iff_of_false (by simp [hattr]) (hnone _)
    callReturn := fun b => by rw [hattr] }

theorem exists_mem_push {α : Type} {P : α → Prop} {as : Array α} {a : α} :
    (∃ x ∈ as.push a, P x) ↔ (∃ x ∈ as, P x) ∨ P a := by
  simp only [Array.mem_push, or_and_right, exists_or, exists_eq_left]

/-- What an added arc says about itself. -/
theorem arcs_connect (draft : Draft n) (source target : Fin n) {attr : ArcAttributes}
    (hattr : attr.stated = attr) : (draft.connect source target attr).arcs =
      draft.arcs.push ⟨⟨source, target⟩, { attr with
        callNonReturn := attr.fake && source.val ≠ 0
        nonlocalReturn := attr.fake && source.val = 0 }⟩ := by
  obtain ⟨onTree, fake, fallThrough, callNonReturn, nonlocalReturn, unconditional⟩ := attr
  cases hattr
  rw [connect]
  split_ifs with hfake hsource <;> simp_all

/-- What an added arc says about the blocks. -/
theorem attr_connect (draft : Draft n) (source target : Fin n) (attr : ArcAttributes)
    (b : Fin n) : ((draft.connect source target attr).blocks.get b).attr =
      { (draft.blocks.get b).attr with
        callSite := (draft.blocks.get b).attr.callSite ||
          attr.fake && source.val ≠ 0 && source = b
        nonlocalReturn := (draft.blocks.get b).attr.nonlocalReturn ||
          attr.fake && source.val = 0 && target = b } := by
  rw [connect]
  split_ifs with hfake hsource
  · simp_all
  · rw [attr_mark]
    split <;> simp_all
  · rw [attr_mark]
    split <;> simp_all

theorem Connected.connect {draft : Draft n} (h : draft.Connected) (source target : Fin n)
    {attr : ArcAttributes} (hattr : attr.stated = attr) :
    (draft.connect source target attr).Connected where
  callNonReturn a ha := by
    rw [arcs_connect _ _ _ hattr, Array.mem_push] at ha
    obtain ha | rfl := ha
    · exact h.callNonReturn a ha
    · simp
  nonlocalReturn a ha := by
    rw [arcs_connect _ _ _ hattr, Array.mem_push] at ha
    obtain ha | rfl := ha
    · exact h.nonlocalReturn a ha
    · simp
  callSite b := by
    rw [attr_connect, arcs_connect _ _ _ hattr, Bool.or_eq_true, h.callSite, exists_mem_push,
      and_or_left]
    refine or_congr_right ?_
    simp only [Bool.and_eq_true, decide_eq_true_eq]
    constructor
    · rintro ⟨⟨hfake, hne⟩, rfl⟩
      exact ⟨hne, hfake, rfl⟩
    · rintro ⟨hne, hfake, rfl⟩
      exact ⟨⟨hfake, hne⟩, rfl⟩
  landing b := by
    rw [attr_connect, arcs_connect _ _ _ hattr, Bool.or_eq_true, h.landing, exists_mem_push]
    simp only [Bool.and_eq_true, decide_eq_true_eq, and_assoc]
  callReturn b := by
    rw [attr_connect]
    exact h.callReturn b

theorem Connected.connectAll {draft draft' : Draft n} {r : ArcsRecord} (h : draft.Connected)
    (hr : draft.connectAll r = .ok draft') : draft'.Connected := by
  obtain ⟨source, -, hr⟩ := bind_eq_ok.1 hr
  refine foldlM_eq_ok_induction hr h fun arc _ d d' hd harc => ?_
  obtain ⟨target, -, harc⟩ := bind_eq_ok.1 harc
  cases harc
  exact hd.connect source target rfl

/-- Only the arcs and the attributes of the blocks matter. -/
theorem Connected.of_attr {draft draft' : Draft n} (h : draft.Connected)
    (harcs : draft'.arcs = draft.arcs)
    (hattr : ∀ b, (draft'.blocks.get b).attr = (draft.blocks.get b).attr) : draft'.Connected where
  callNonReturn := harcs ▸ h.callNonReturn
  nonlocalReturn := harcs ▸ h.nonlocalReturn
  callSite b := by rw [hattr, harcs, h.callSite]
  landing b := by rw [hattr, harcs, h.landing]
  callReturn b := by rw [hattr, h.callReturn]

theorem Connected.coverLines {draft draft' : Draft n} {file : Symbol} {r : LinesRecord Symbol}
    (h : draft.Connected) (hr : draft.coverLines file r = .ok draft') : draft'.Connected := by
  obtain ⟨b, -, hr⟩ := bind_eq_ok.1 hr
  cases hr
  refine h.of_attr rfl fun b' => ?_
  dsimp only
  rw [get_set]
  split
  · next hb => rw [hb]
  · rfl

theorem connected_of_ofRecords {record : FunctionRecord Symbol}
    {draft : Draft record.blocks.length} (h : ofRecords record = .ok draft) : draft.Connected := by
  obtain ⟨connected, hconnected, hcovered⟩ := bind_eq_ok.1 h
  have harcs : connected.Connected :=
    foldlM_eq_ok_induction hconnected (connected_ofBlocks _) fun _ _ _ _ hd => hd.connectAll
  exact foldlM_eq_ok_induction hcovered harcs fun _ _ _ _ hd => hd.coverLines

/-! ### Attributes of the finished graph -/

/-- The attributes after the last pass. -/
structure Finished (draft : Draft n) : Prop extends Marked draft where
  unconditional : ∀ a ∈ draft.arcs, a.attr.unconditional = true ↔ a.attr.fake = false ∧
    draft.arcs.toList.countP (fun a' => a'.source = a.source && !a'.attr.fake) = 1
  callReturn : ∀ b, (draft.blocks.get b).attr.callReturn = true ↔
    ∃ a ∈ draft.arcs, a.target = b ∧ a.attr.fallThrough = true ∧ a.attr.unconditional = true ∧
      (draft.blocks.get a.source).attr.callSite = true ∧
      draft.arcs.toList.countP (fun a' => a'.target = b) = 1

theorem Connected.markUnconditional {draft : Draft n} (h : draft.Connected) :
    draft.markUnconditional.Connected where
  callNonReturn := Array.forall_mem_map.2 h.callNonReturn
  nonlocalReturn := Array.forall_mem_map.2 h.nonlocalReturn
  callSite b := by
    rw [Draft.markUnconditional, h.callSite]
    simp
  landing b := by
    rw [Draft.markUnconditional, h.landing]
    simp
  callReturn := h.callReturn

theorem unconditional_markUnconditional (draft : Draft n) :
    ∀ a ∈ draft.markUnconditional.arcs, a.attr.unconditional = true ↔ a.attr.fake = false ∧
      draft.markUnconditional.arcs.toList.countP
        (fun a' => a'.source = a.source && !a'.attr.fake) = 1 := by
  refine Array.forall_mem_map.2 fun a _ => ?_
  rw [markUnconditional, Array.toList_map, List.countP_map, Bool.and_eq_true, get_tally,
    List.countP_filter, Bool.not_eq_true', decide_eq_true_eq]
  rfl

/-- The blocks that are marked are the targets of the arcs. -/
theorem attr_foldl_mark (arcs : List (Arc n)) (blocks : Vector Block n) (b : Fin n) :
    ((arcs.foldl (fun blocks a => mark ({ · with callReturn := true }) blocks a.target)
      blocks).get b).attr = { (blocks.get b).attr with
        callReturn := (blocks.get b).attr.callReturn || arcs.any (·.target = b) } := by
  induction arcs generalizing blocks with
  | nil => simp
  | cons a arcs ih =>
    rw [List.foldl_cons, ih, attr_mark, List.any_cons]
    split <;> simp_all

theorem Connected.markCallReturns {draft : Draft n} (h : draft.Connected)
    (hunconditional : ∀ a ∈ draft.arcs, a.attr.unconditional = true ↔ a.attr.fake = false ∧
      draft.arcs.toList.countP (fun a' => a'.source = a.source && !a'.attr.fake) = 1) :
    draft.markCallReturns.Finished where
  callNonReturn := h.callNonReturn
  nonlocalReturn := h.nonlocalReturn
  callSite b := by
    rw [Draft.markCallReturns, attr_foldl_mark]
    exact h.callSite b
  landing b := by
    rw [Draft.markCallReturns, attr_foldl_mark]
    exact h.landing b
  unconditional := hunconditional
  callReturn b := by
    simp only [Draft.markCallReturns, attr_foldl_mark, h.callReturn, Bool.false_or, get_tally,
      List.any_eq_true, List.mem_filter, Bool.and_eq_true, decide_eq_true_eq, Array.mem_toList_iff]
    refine exists_congr fun a => ?_
    constructor
    · rintro ⟨⟨ha, ⟨⟨hunconditional, hfall⟩, hsite⟩, hone⟩, rfl⟩
      exact ⟨ha, rfl, hfall, hunconditional, hsite, hone⟩
    · rintro ⟨ha, rfl, hfall, hunconditional, hsite, hone⟩
      exact ⟨⟨ha, ⟨⟨hunconditional, hfall⟩, hsite⟩, hone⟩, rfl⟩

theorem Connected.finish {draft : Draft n} (h : draft.Connected) : draft.finish.Finished :=
  h.markUnconditional.markCallReturns draft.unconditional_markUnconditional

/-- The last pass adds no arc and changes nothing that the records state. -/
theorem stated_finish (draft : Draft n) : draft.finish.stated = draft.stated := by
  simp only [stated, finish, markCallReturns, markUnconditional, Array.toList_map, List.map_map]
  rfl

end Draft

namespace FunctionGraph

/-! ### Graphs of records -/

/-- A graph has the arcs that the records list, and counts them. -/
structure Lists (f : FunctionGraph) (record : FunctionRecord Symbol) : Prop where
  size : f.size = record.blocks.length
  arcs : f.arcs.toList.map Arc.stated = record.statedArcs
  numArcs : f.numArcs = record.statedArcs.length
  instrumented : f.instrumented.length = record.statedArcs.countP fun x => !x.attr.onTree
  fullComplexity : f.fullComplexity = record.statedArcs.length - record.blocks.length + 2
  /-- Fake arcs into the exit do not count. -/
  complexity : f.complexity = f.fullComplexity -
    record.statedArcs.countP fun x => x.attr.fake && x.target = record.blocks.length - 1

/-- What the derived attributes tell about the arcs of a graph. -/
structure Classified (f : FunctionGraph) : Prop where
  /-- The arc is fake and does not leave the entry. -/
  callNonReturn : ∀ i, (f.arcs.get i).attr.callNonReturn = true ↔
    (f.arcs.get i).attr.fake = true ∧ (f.arcs.get i).source ≠ f.entry
  /-- The arc is fake and leaves the entry. -/
  nonlocalReturn : ∀ i, (f.arcs.get i).attr.nonlocalReturn = true ↔
    (f.arcs.get i).attr.fake = true ∧ (f.arcs.get i).source = f.entry
  /-- The arc is the only one to leave its source, fake ones apart. -/
  unconditional : ∀ i, (f.arcs.get i).attr.unconditional = true ↔
    (f.arcs.get i).attr.fake = false ∧ ∀ j, (f.arcs.get j).source = (f.arcs.get i).source →
      (f.arcs.get j).attr.fake = false → j = i
  /-- A fake arc leaves the block, which is not the entry. -/
  callSite : ∀ b, (f.blocks.get b).attr.callSite = true ↔
    b ≠ f.entry ∧ ∃ i, (f.arcs.get i).attr.fake = true ∧ (f.arcs.get i).source = b
  /-- A fake arc leads from the entry to the block. -/
  landing : ∀ b, (f.blocks.get b).attr.nonlocalReturn = true ↔
    ∃ i, (f.arcs.get i).attr.fake = true ∧ (f.arcs.get i).source = f.entry ∧
      (f.arcs.get i).target = b
  /-- Only one arc enters the block, and it falls through from a call site unconditionally. -/
  callReturn : ∀ b, (f.blocks.get b).attr.callReturn = true ↔
    ∃ i, (∀ j, (f.arcs.get j).target = b ↔ j = i) ∧ (f.arcs.get i).attr.fallThrough = true ∧
      (f.arcs.get i).attr.unconditional = true ∧
      (f.blocks.get (f.arcs.get i).source).attr.callSite = true

variable {record : FunctionRecord Symbol} {f : FunctionGraph}

theorem length_instrumented (f : FunctionGraph) :
    f.instrumented.length = f.arcs.toList.countP fun a => !a.attr.onTree := by
  rw [toList_eq_map_get, List.countP_map, List.countP_eq_length_filter]
  rfl

theorem ofRecord_ofRecords (h : ofRecord record = .ok f) : ∃ draft two_le,
    Draft.ofRecords record = .ok draft ∧ f = ofDraft record draft.finish two_le := by
  obtain ⟨connected, covered, ends, hconnected, hcovered, -, rfl⟩ := ofRecord_eq_ok_iff.1 h
  exact ⟨covered, ends.down, bind_eq_ok.2 ⟨connected, hconnected, hcovered⟩, rfl⟩

theorem lists_of_ofRecord (h : ofRecord record = .ok f) : f.Lists record := by
  obtain ⟨draft, two_le, hdraft, rfl⟩ := ofRecord_ofRecords h
  have harcs : (ofDraft record draft.finish two_le).arcs.toList.map Arc.stated =
      record.statedArcs := by
    rw [← Draft.stated_of_ofRecords hdraft, ← draft.stated_finish]
    rfl
  have hnum : (ofDraft record draft.finish two_le).numArcs = record.statedArcs.length := by
    rw [← harcs, List.length_map, Vector.length_toList]
  exact {
    size := rfl
    arcs := harcs
    numArcs := hnum
    instrumented := by
      rw [length_instrumented, ← harcs, List.countP_map]
      rfl
    fullComplexity := by
      rw [fullComplexity, hnum]
      rfl
    complexity := by
      rw [complexity, fakeExits, ← Vector.countP_toList, ← harcs, List.countP_map]
      simp only [Function.comp_def, Fin.ext_iff]
      rfl }

/-- The blocks and arcs of a graph, as they were before counts and names were added. -/
def toDraft (f : FunctionGraph) : Draft f.size where
  blocks := f.blocks
  arcs := f.arcs.toArray

theorem get_mem_toDraft (f : FunctionGraph) (i : Fin f.numArcs) : f.arcs.get i ∈ f.toDraft.arcs :=
  (Vector.mem_toArray_iff _ _).2 (Vector.getElem_mem i.isLt)

theorem exists_mem_toDraft {f : FunctionGraph} {P : Arc f.size → Prop} :
    (∃ a ∈ f.toDraft.arcs, P a) ↔ ∃ i, P (f.arcs.get i) := by
  constructor
  · rintro ⟨a, ha, hP⟩
    obtain ⟨k, hk, rfl⟩ := Vector.getElem_of_mem ((Vector.mem_toArray_iff _ _).1 ha)
    exact ⟨⟨k, hk⟩, hP⟩
  · rintro ⟨i, hP⟩
    exact ⟨_, f.get_mem_toDraft i, hP⟩

/-- The tallies of the last pass tell which arcs are the only ones. -/
theorem Classified.of_finished {f : FunctionGraph} (h : f.toDraft.Finished) : f.Classified := by
  have hentry (b : Fin f.size) : b.val = 0 ↔ b = f.entry := (Fin.ext_iff (b := f.entry)).symm
  exact {
    callNonReturn := fun i => by
      rw [h.callNonReturn _ (f.get_mem_toDraft i), ne_eq, hentry]
    nonlocalReturn := fun i => by
      rw [h.nonlocalReturn _ (f.get_mem_toDraft i), hentry]
    unconditional := fun i => by
      rw [h.unconditional _ (f.get_mem_toDraft i)]
      refine and_congr_right fun hfake => ?_
      have hi : (decide ((f.arcs.get i).source = (f.arcs.get i).source) &&
          !(f.arcs.get i).attr.fake) = true := by simp [hfake]
      refine (countP_toList_eq_one_iff (v := f.arcs) hi).trans ?_
      simp
    callSite := fun b => by
      refine (h.callSite b).trans (and_congr (not_congr (hentry b)) exists_mem_toDraft)
    landing := fun b => by
      refine (h.landing b).trans (exists_mem_toDraft.trans ?_)
      simp only [hentry]
    callReturn := fun b => by
      refine (h.callReturn b).trans (exists_mem_toDraft.trans (exists_congr fun i => ?_))
      have hone (hi : (f.arcs.get i).target = b) :=
        countP_toList_eq_one_iff (v := f.arcs) (p := (·.target = b)) (decide_eq_true hi)
      simp only [decide_eq_true_eq] at hone
      constructor
      · rintro ⟨hi, hfall, hunconditional, hsite, hcount⟩
        exact ⟨fun j => ⟨(hone hi).1 hcount j, fun hj => hj ▸ hi⟩, hfall, hunconditional, hsite⟩
      · rintro ⟨honly, hfall, hunconditional, hsite⟩
        have hi := (honly i).2 rfl
        exact ⟨hi, hfall, hunconditional, hsite, (hone hi).2 fun j => (honly j).1⟩ }

/-- The graph of a function lists the arcs of its records, and its attributes are derived from
them. -/
theorem classified_of_ofRecord (h : ofRecord record = .ok f) : f.Lists record ∧ f.Classified := by
  refine ⟨lists_of_ofRecord h, .of_finished ?_⟩
  obtain ⟨draft, two_le, hdraft, rfl⟩ := ofRecord_ofRecords h
  exact (Draft.connected_of_ofRecords hdraft).finish

/-- A call that need not return, and a return past the caller. The arcs of the call are spread over
two records. -/
def callRecord : FunctionRecord Symbol where
  ident := ⟨1⟩
  checksum := 0
  name := "f"
  source := ⟨0⟩
  line := 1
  blocks := [0, 0, 0, 0]
  arcs := [⟨⟨1⟩, [⟨⟨3⟩, 2⟩]⟩, ⟨⟨0⟩, [⟨⟨1⟩, 5⟩, ⟨⟨3⟩, 2⟩]⟩, ⟨⟨1⟩, [⟨⟨2⟩, 4⟩]⟩, ⟨⟨2⟩, [⟨⟨3⟩, 1⟩]⟩]
  lines := []

/-- The two fake arcs into the exit do not count for the complexity, and the block after the call is
only entered from it. -/
theorem classified_of_ofRecord_call : ∃ f, ofRecord callRecord = .ok f ∧ f.Lists callRecord ∧
    f.Classified ∧ f.numArcs = 5 ∧ f.instrumented.length = 3 ∧ f.complexity = 1 ∧
    f.blocks.toList.map (·.attr.callReturn) = [false, false, true, false] := by
  obtain ⟨f, hf, hreturns⟩ : ∃ f, ofRecord callRecord = .ok f ∧
      f.blocks.toList.map (·.attr.callReturn) = [false, false, true, false] := ⟨_, by cbv, by cbv⟩
  obtain ⟨hlists, hclassified⟩ := classified_of_ofRecord hf
  refine ⟨f, hf, hlists, hclassified, hlists.numArcs.trans (by cbv),
    hlists.instrumented.trans (by cbv), ?_, hreturns⟩
  rw [hlists.complexity, hlists.fullComplexity]
  decide

end FunctionGraph

end CoverageFlow
