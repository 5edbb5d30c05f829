import CoverageFlow.Proofs.Flow.Completion
import CoverageFlow.Proofs.Graph.Conservation

/-!
# The life cycle of a function graph

A graph may be offered the counts of any number of records, good and bad ones in any order. The
first record that passes the checks decides what becomes of the graph. Its counts are written, and
whether they can be completed or not, the graph never changes again. What comes before it, and
what comes after it, is refused and leaves no trace.

## Main definitions

* `FunctionGraph.after`: a graph after the merging of records, one after the other.
* `FunctionGraph.Matches`, `FunctionGraph.Accepts`: a record passes the checks on what it belongs
  to; it is merged.
* `FunctionGraph.MergesOnce`: what every sequence of records leads to.

## Main results

* `FunctionGraph.after_cases`: the graphs that sequences of records lead to.
* `FunctionGraph.mergesOnce`: the life cycle of a graph that was just built.
-/

namespace CoverageFlow

namespace FunctionGraph

variable {f : FunctionGraph} {data : FunctionData} {calls : List FunctionData}

/-- The graph that merging a record leaves, whether that succeeds or not. -/
def afterMerge (f : FunctionGraph) (data : FunctionData) : FunctionGraph :=
  match f.merge data with
  | .ok _ g => g
  | .error _ g => g

/-- The graph after records were merged, one after the other. -/
def after (f : FunctionGraph) (calls : List FunctionData) : FunctionGraph :=
  calls.foldl afterMerge f

@[simp] theorem after_nil (f : FunctionGraph) : f.after [] = f := rfl

@[simp] theorem after_cons (f : FunctionGraph) (data : FunctionData)
    (calls : List FunctionData) : f.after (data :: calls) = (f.afterMerge data).after calls := rfl

theorem after_append (f : FunctionGraph) (calls later : List FunctionData) :
    f.after (calls ++ later) = (f.after calls).after later :=
  List.foldl_append

/-- A record belongs to the function: it has the checksum and as many counts as are expected. -/
structure Matches (f : FunctionGraph) (data : FunctionData) : Prop where
  checksum : data.checksum = f.checksum
  length : data.counts.length = f.instrumented.length

/-- Merging a record succeeds. -/
def Accepts (f : FunctionGraph) (data : FunctionData) : Prop :=
  ∃ g, f.merge data = .ok () g

/-- What every sequence of records leads to. -/
structure MergesOnce (f : FunctionGraph) : Prop where
  /-- At most one record is merged. -/
  accepts_once : ∀ calls data later next, (f.after calls).Accepts data →
    ¬ (f.after (calls ++ data :: later)).Accepts next
  /-- A record with another checksum is refused, and nothing changes. -/
  checksumMismatch : ∀ calls data, data.checksum ≠ f.checksum → (f.after calls).merge data =
    .error (.bare (.checksumMismatch f.name f.checksum data.checksum)) (f.after calls)
  /-- So is a record with another number of counts. -/
  countsMismatch : ∀ calls data, data.checksum = f.checksum →
    data.counts.length ≠ f.instrumented.length → (f.after calls).merge data =
      .error (.bare (.countsMismatch f.name f.instrumented.length data.counts.length))
        (f.after calls)
  /-- So is a record that matches the function as an earlier one did. -/
  mergedTwice : ∀ calls data, f.Matches data → (∃ earlier ∈ calls, f.Matches earlier) →
    (f.after calls).merge data =
      .error (.bare (.malformedGraph f.name .mergedTwice)) (f.after calls)
  /-- Until a record matches, no count is known. -/
  unknown : ∀ calls, (∀ data ∈ calls, ¬ f.Matches data) → ∀ x, (f.after calls).counts.of x = none
  /-- The graph is complete once a record was merged, and only then. -/
  isComplete_iff : ∀ calls, (f.after calls).isComplete = true ↔
    ∃ before data later, calls = before ++ data :: later ∧ (f.after before).Accepts data
  /-- Every block and arc of a complete graph has a count, and no later record changes any. -/
  complete : ∀ calls, (f.after calls).isComplete = true →
    (∀ x, (f.after calls).counts.of x ≠ none) ∧
      ∀ later, f.after (calls ++ later) = f.after calls
  /-- If the first record that matches is not merged, no later one is, and there are never any
  statistics. -/
  failed : ∀ calls data, (∀ earlier ∈ calls, ¬ f.Matches earlier) → f.Matches data →
    ¬ (f.after calls).Accepts data → ∀ later, (f.after (calls ++ data :: later)).statistics = none ∧
      ∀ next, ¬ (f.after (calls ++ data :: later)).Accepts next

/-! ### One record -/

theorem merge_eq_checksumMismatch (h : data.checksum ≠ f.checksum) :
    f.merge data = .error (.bare (.checksumMismatch f.name f.checksum data.checksum)) f :=
  if_pos h

theorem merge_eq_countsMismatch (hchecksum : data.checksum = f.checksum)
    (hlength : data.counts.length ≠ f.instrumented.length) : f.merge data =
      .error (.bare (.countsMismatch f.name f.instrumented.length data.counts.length)) f :=
  (if_neg (not_not.2 hchecksum)).trans (if_pos hlength)

theorem Matches.merge_eq_mergedTwice (h : f.Matches data) (hmerged : f.merged = true) :
    f.merge data = .error (.bare (.malformedGraph f.name .mergedTwice)) f :=
  (if_neg (not_not.2 h.checksum)).trans
    ((if_neg (not_not.2 h.length)).trans (if_pos hmerged))

theorem Takes.matches (h : f.Takes data) : f.Matches data := ⟨h.checksum, h.length⟩

theorem Matches.takes (h : f.Matches data) (hmerged : f.merged = false) : f.Takes data :=
  ⟨h.checksum, h.length, hmerged⟩

theorem accepts_iff : f.Accepts data ↔ f.Takes data ∧
    ∃ c, f.network.complete (f.instrumentedCounts data.counts) = .ok () c := by
  constructor
  · rintro ⟨g, h⟩
    obtain ⟨htakes, c, hend, -⟩ := merge_eq_ok_iff.1 h
    exact ⟨htakes, c, hend⟩
  · rintro ⟨htakes, c, hend⟩
    exact ⟨_, merge_eq_ok_iff.2 ⟨htakes, c, hend, rfl⟩⟩

/-- A record that is refused leaves the graph as it was. -/
theorem afterMerge_of_not_takes (h : ¬ f.Takes data) : f.afterMerge data = f := by
  rw [afterMerge]
  rcases hend : f.merge data with ⟨⟨⟩, g⟩ | ⟨e, g⟩
  · exact absurd (merge_eq_ok_iff.1 hend).1 h
  · obtain ⟨-, rfl, -⟩ | ⟨htakes, -⟩ := merge_eq_error hend
    · rfl
    · exact absurd htakes h

/-- The counts of a record that is not refused are completed, or left as far as they are known. -/
theorem Takes.afterMerge_cases (h : f.Takes data) :
    (f.Accepts data ∧ ∃ c, c.missing = ∅ ∧ f.afterMerge data = f.withCounts c) ∨
      (¬ f.Accepts data ∧ ∃ c, f.afterMerge data = { f with merged := true, counts := c }) := by
  rcases hend : f.network.complete (f.instrumentedCounts data.counts) with ⟨⟨⟩, c⟩ | ⟨o, c⟩
  · have hmerge := merge_eq_ok_iff.2 ⟨h, c, hend, rfl⟩
    refine .inl ⟨⟨_, hmerge⟩, c, (Network.complete_eq_ok hend).2, ?_⟩
    rw [afterMerge, hmerge]
  · refine .inr ⟨fun haccepts => ?_, c, by rw [afterMerge, h.merge_eq_error hend]⟩
    obtain ⟨-, c', hok⟩ := accepts_iff.1 haccepts
    rw [hend] at hok
    cases hok

theorem Takes.merged_afterMerge (h : f.Takes data) : (f.afterMerge data).merged = true := by
  obtain ⟨-, c, -, hafter⟩ | ⟨-, c, hafter⟩ := h.afterMerge_cases
  · rw [hafter]
    rfl
  · rw [hafter]

/-! ### Sequences of records -/

/-- Nothing changes a graph into which a record was merged. -/
theorem after_of_merged (h : f.merged = true) (calls : List FunctionData) :
    f.after calls = f := by
  induction calls with
  | nil => rfl
  | cons data calls ih =>
    have hrefused : ¬ f.Takes data := fun htakes => Bool.false_ne_true (htakes.unmerged ▸ h)
    rw [after_cons, afterMerge_of_not_takes hrefused, ih]

/-- Records that do not match leave no trace. -/
theorem after_of_forall_not_matches (h : ∀ data ∈ calls, ¬ f.Matches data) :
    f.after calls = f := by
  induction calls with
  | nil => rfl
  | cons data calls ih =>
    have hrefused : ¬ f.Takes data := fun htakes => h data List.mem_cons_self htakes.matches
    rw [after_cons, afterMerge_of_not_takes hrefused]
    exact ih fun data hdata => h data (List.mem_cons_of_mem _ hdata)

/-- A sequence of records has no effect if none of them matches, else that of the first which
does. -/
theorem after_cases (hf : f.merged = false) (calls : List FunctionData) :
    ((∀ data ∈ calls, ¬ f.Matches data) ∧ f.after calls = f) ∨
      ∃ before data later, calls = before ++ data :: later ∧ (∀ d ∈ before, ¬ f.Matches d) ∧
        f.Takes data ∧ f.after calls = f.afterMerge data := by
  induction calls with
  | nil => exact .inl ⟨by rintro _ ⟨⟩, rfl⟩
  | cons data calls ih =>
    by_cases hdata : f.Matches data
    · have htakes := hdata.takes hf
      refine .inr ⟨[], data, calls, rfl, by rintro _ ⟨⟩, htakes, ?_⟩
      rw [after_cons, after_of_merged htakes.merged_afterMerge]
    · rw [after_cons, afterMerge_of_not_takes (mt Takes.matches hdata)]
      obtain ⟨hcalls, hafter⟩ | ⟨before, next, later, rfl, hbefore, htakes, hafter⟩ := ih
      · exact .inl ⟨List.forall_mem_cons.2 ⟨hdata, hcalls⟩, hafter⟩
      · exact .inr ⟨data :: before, next, later, rfl, List.forall_mem_cons.2 ⟨hdata, hbefore⟩,
          htakes, hafter⟩

/-- The first record that matches decides. -/
theorem Takes.after_eq_afterMerge (h : f.Takes data) {before : List FunctionData}
    (hbefore : ∀ earlier ∈ before, ¬ f.Matches earlier) (later : List FunctionData) :
    f.after (before ++ data :: later) = f.afterMerge data := by
  rw [after_append, after_of_forall_not_matches hbefore, after_cons,
    after_of_merged h.merged_afterMerge]

/-- Records change nothing but what is known about the counts. -/
theorem after_eq (f : FunctionGraph) (calls : List FunctionData) : ∃ counts merged statistics,
    f.after calls = { f with counts, merged, statistics } := by
  induction calls generalizing f with
  | nil => exact ⟨f.counts, f.merged, f.statistics, rfl⟩
  | cons data calls ih =>
    rw [after_cons]
    by_cases h : f.Takes data
    · rw [after_of_merged h.merged_afterMerge]
      obtain ⟨-, c, -, hafter⟩ | ⟨-, c, hafter⟩ := h.afterMerge_cases
      · exact ⟨c, true, _, hafter⟩
      · exact ⟨c, true, f.statistics, hafter⟩
    · rw [afterMerge_of_not_takes h]
      exact ih f

theorem checksum_after (f : FunctionGraph) (calls : List FunctionData) :
    (f.after calls).checksum = f.checksum := by
  obtain ⟨_, _, _, hafter⟩ := f.after_eq calls
  rw [hafter]

theorem name_after (f : FunctionGraph) (calls : List FunctionData) :
    (f.after calls).name = f.name := by
  obtain ⟨_, _, _, hafter⟩ := f.after_eq calls
  rw [hafter]

theorem length_instrumented_after (f : FunctionGraph) (calls : List FunctionData) :
    (f.after calls).instrumented.length = f.instrumented.length := by
  obtain ⟨_, _, _, hafter⟩ := f.after_eq calls
  rw [hafter]
  rfl

/-- Once a record matched, all that come later are refused. -/
theorem merged_after (hf : f.merged = false) (hmatches : ∃ data ∈ calls, f.Matches data) :
    (f.after calls).merged = true := by
  obtain ⟨data, hdata, hmatch⟩ := hmatches
  obtain ⟨hcalls, -⟩ | ⟨_, _, _, -, -, htakes, hafter⟩ := after_cases hf calls
  · exact absurd hmatch (hcalls data hdata)
  · rw [hafter]
    exact htakes.merged_afterMerge

theorem not_accepts_of_merged (h : f.merged = true) : ¬ f.Accepts data := fun haccepts =>
  Bool.false_ne_true ((accepts_iff.1 haccepts).1.unmerged ▸ h)

/-! ### The life cycle -/

/-- A complete graph is what the first record that matched left, and that record was merged. -/
theorem Fresh.accepts_of_isComplete (hf : f.Fresh) (h : (f.after calls).isComplete = true) :
    ∃ before data later, calls = before ++ data :: later ∧ (∀ d ∈ before, ¬ f.Matches d) ∧
      f.Accepts data ∧ ∃ c, c.missing = ∅ ∧ f.after calls = f.withCounts c := by
  obtain ⟨-, hafter⟩ | ⟨before, data, later, hcalls, hbefore, htakes, hafter⟩ :=
    after_cases hf.merged calls
  · rw [hafter, isComplete, hf.statistics] at h
    cases h
  · obtain ⟨haccepts, hend⟩ | ⟨-, c, hend⟩ := htakes.afterMerge_cases
    · rw [hafter]
      exact ⟨before, data, later, hcalls, hbefore, haccepts, hend⟩
    · rw [hafter, hend, isComplete, hf.statistics] at h
      cases h

/-- After a record was merged the graph is complete. -/
theorem isComplete_after_of_accepts (h : (f.after calls).Accepts data)
    (later : List FunctionData) :
    (f.after (calls ++ data :: later)).isComplete = true := by
  have htakes := (accepts_iff.1 h).1
  rw [after_append, after_cons, after_of_merged htakes.merged_afterMerge]
  obtain ⟨-, c, -, hafter⟩ | ⟨hrefused, -⟩ := htakes.afterMerge_cases
  · rw [hafter]
    rfl
  · exact absurd h hrefused

/-- The first record that matches a graph that was just built is the only one ever to be merged,
and whatever becomes of it stays. -/
theorem mergesOnce {record : FunctionRecord Symbol} (h : ofRecord record = .ok f) :
    f.MergesOnce := by
  have hf := fresh_of_ofRecord h
  constructor
  case accepts_once =>
    intro calls data later next haccepts
    refine not_accepts_of_merged ?_
    have htakes := (accepts_iff.1 haccepts).1
    rw [after_append, after_cons, after_of_merged htakes.merged_afterMerge]
    exact htakes.merged_afterMerge
  case checksumMismatch =>
    intro calls data hchecksum
    rw [← f.checksum_after calls] at hchecksum
    rw [merge_eq_checksumMismatch hchecksum, checksum_after, name_after]
  case countsMismatch =>
    intro calls data hchecksum hlength
    rw [← f.checksum_after calls] at hchecksum
    rw [← f.length_instrumented_after calls] at hlength
    rw [merge_eq_countsMismatch hchecksum hlength, length_instrumented_after, name_after]
  case mergedTwice =>
    intro calls data hdata hearlier
    have hmatches : (f.after calls).Matches data :=
      ⟨hdata.checksum.trans (f.checksum_after calls).symm,
        hdata.length.trans (f.length_instrumented_after calls).symm⟩
    rw [hmatches.merge_eq_mergedTwice (merged_after hf.merged hearlier), name_after]
  case unknown =>
    intro calls hcalls
    rw [after_of_forall_not_matches hcalls, hf.counts]
    rintro (b | i)
    · exact get_replicate none b
    · exact get_replicate none i
  case isComplete_iff =>
    intro calls
    constructor
    · intro hcomplete
      obtain ⟨before, data, later, rfl, hbefore, haccepts, -⟩ := hf.accepts_of_isComplete hcomplete
      refine ⟨before, data, later, rfl, ?_⟩
      rwa [after_of_forall_not_matches hbefore]
    · rintro ⟨before, data, later, rfl, haccepts⟩
      exact isComplete_after_of_accepts haccepts later
  case complete =>
    intro calls hcomplete
    obtain ⟨-, -, -, -, -, -, c, hmissing, hafter⟩ := hf.accepts_of_isComplete hcomplete
    refine ⟨?_, fun later => ?_⟩
    · rw [hafter]
      exact Counts.of_ne_none hmissing
    · rw [after_append, hafter]
      exact after_of_merged rfl later
  case failed =>
    intro calls data hcalls hdata hrefused later
    have htakes := hdata.takes hf.merged
    rw [after_of_forall_not_matches hcalls] at hrefused
    rw [htakes.after_eq_afterMerge hcalls]
    obtain ⟨haccepts, -⟩ | ⟨-, c, hafter⟩ := htakes.afterMerge_cases
    · exact absurd haccepts hrefused
    · rw [hafter]
      exact ⟨hf.statistics, fun next => not_accepts_of_merged rfl⟩

/-- Counts for another version of the chain are refused without harm, and once the right ones are
merged no others are. -/
theorem mergesOnce_chain :
    chain.after [⟨⟨1⟩, 7, [4, 4]⟩] = chain ∧ chain.Accepts ⟨⟨1⟩, 0, [4, 4]⟩ ∧
      ∀ next, ¬ (chain.after [⟨⟨1⟩, 0, [4, 4]⟩, ⟨⟨1⟩, 7, [4, 4]⟩]).Accepts next := by
  have haccepts : chain.Accepts ⟨⟨1⟩, 0, [4, 4]⟩ :=
    accepts_iff.2 ⟨⟨rfl, rfl, rfl⟩, ⟨#v[some 4, some 4, some 4], #v[some 4, some 4]⟩, by cbv⟩
  have hrefused :=
    (mergesOnce ofRecord_chainRecord).checksumMismatch [] ⟨⟨1⟩, 7, [4, 4]⟩ (by decide)
  refine ⟨?_, haccepts, fun next => ?_⟩
  · rw [after_nil] at hrefused
    rw [after_cons, after_nil, afterMerge, hrefused]
  · exact (mergesOnce ofRecord_chainRecord).accepts_once [] _ [⟨⟨1⟩, 7, [4, 4]⟩] next haccepts

end FunctionGraph

end CoverageFlow
