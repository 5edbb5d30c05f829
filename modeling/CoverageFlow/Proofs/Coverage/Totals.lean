import CoverageFlow.Coverage.Merge
import CoverageFlow.Proofs.Graph.Conservation
import CoverageFlow.Proofs.Reader.Data
import Mathlib

/-!
# Sums over records

Before any function is merged, the counts of a data file are added up, for each function on its
own. This is possible if the records about a function agree on what they count, and if no sum
exceeds the largest count; a partial sum never exceeds a sum that does not. Nothing else of the
records matters, neither their order nor what was added up by an earlier program.

## Main definitions

* `FunctionData.countAt`, `FunctionData.sumAt`: a count of a record, and its sum over all records
  about a function.
* `FunctionData.Addable`: the records of a list can be added up.
* `FunctionData.Totals`: what they add up to.
* `FunctionData.SameSums`: two lists of records add up to the same.

## Main results

* `Coverage.totals_addRecord`, `Coverage.totals_foldlM`: one record, and a list of records.
* `Coverage.exists_totals_iff`: when records can be added up.
* `Coverage.mergeFile_congr`: merging a data file depends on the sums only.
-/

namespace CoverageFlow

/-! ### Maps -/

/-- An entry changes nothing at other keys. -/
theorem getElem?_insert_eq {α β : Type} [Ord α] [Std.TransOrd α] [Std.LawfulEqOrd α]
    [DecidableEq α] {m : Std.ExtTreeMap α β} {k a : α} {v : β} :
    (m.insert k v)[a]? = if k = a then some v else m[a]? := by
  rw [Std.ExtTreeMap.getElem?_insert]
  simp only [Std.LawfulEqOrd.compare_eq_iff_eq]

/-! ### Computations that give warnings -/

namespace Logged

variable {α : Type} {x : Logged α} {a : α} {log log' : List Warning}

theorem ofExcept_eq_ok_iff {r : Except Failure α} :
    ofExcept r log = .ok a log' ↔ r = .ok a ∧ log = log' := by
  cases r with
  | ok a' =>
    constructor
    · rintro ⟨⟩
      exact ⟨rfl, rfl⟩
    · rintro ⟨⟨⟩, rfl⟩
      rfl
  | error e =>
    constructor
    · rintro ⟨⟩
    · rintro ⟨⟨⟩, -⟩

/-- A place is added to failures only. -/
theorem passing_eq_ok_iff {place : Place} :
    passing place x log = .ok a log' ↔ x log = .ok a log' := by
  rw [passing]
  cases x log with
  | ok a' log₁ => rfl
  | error e log₁ =>
    constructor <;> rintro ⟨⟩

theorem passing_ofExcept_eq_ok_iff {place : Place} {r : Except Failure α} :
    passing place (ofExcept r) log = .ok a log' ↔ r = .ok a ∧ log = log' :=
  passing_eq_ok_iff.trans ofExcept_eq_ok_iff

end Logged

namespace FunctionData

variable {a b sum : FunctionData} {records before : List FunctionData} {ident : Ident} {k : ℕ}

/-! ### Sums -/

/-- The count at a position of a row, which is nothing past its end. -/
def rowAt (counts : List Count) (k : ℕ) : ℕ :=
  (counts[k]?.map UInt64.toNat).getD 0

/-- The count at a position of a record. -/
def countAt (data : FunctionData) (k : ℕ) : ℕ := rowAt data.counts k

/-- The exact sum of the counts at a position, over all records about a function. -/
def sumAt (records : List FunctionData) (ident : Ident) (k : ℕ) : ℕ :=
  ((records.filter fun r => r.ident = ident).map fun r => r.countAt k).sum

theorem rowAt_le (counts : List Count) (k : ℕ) : rowAt counts k ≤ Count.max.toNat := by
  rw [rowAt]
  cases counts[k]? with
  | none => exact Nat.zero_le _
  | some count => exact Nat.le_sub_one_of_lt count.toNat_lt_size

/-- A row is known by its length and its counts. -/
theorem row_ext {as bs : List Count} (hlength : as.length = bs.length)
    (h : ∀ k, rowAt as k = rowAt bs k) : as = bs := by
  refine List.ext_getElem hlength fun k hk hk' => UInt64.toNat_inj.1 ?_
  have hcounts := h k
  rwa [rowAt, rowAt, List.getElem?_eq_getElem hk, List.getElem?_eq_getElem hk'] at hcounts

theorem sumAt_append (records later : List FunctionData) (ident : Ident) (k : ℕ) :
    sumAt (records ++ later) ident k = sumAt records ident k + sumAt later ident k := by
  simp [sumAt]

theorem sumAt_singleton (data : FunctionData) (ident : Ident) (k : ℕ) :
    sumAt [data] ident k = if data.ident = ident then data.countAt k else 0 := by
  by_cases h : data.ident = ident <;> simp [sumAt, h]

/-- Records about other functions add nothing. -/
theorem sumAt_eq_zero (h : ∀ r ∈ records, r.ident ≠ ident) : sumAt records ident k = 0 := by
  rw [sumAt, List.filter_eq_nil_iff.2 fun r hr => by simpa using h r hr]
  rfl

end FunctionData

/-! ### Two rows -/

namespace Count

open FunctionData

/-- Rows of the same length are added count by count. -/
theorem addRows?_eq_some {as bs cs : List Count} (hlength : as.length = bs.length)
    (h : addRows? as bs = some cs) :
    cs.length = as.length ∧ ∀ k, rowAt cs k = rowAt as k + rowAt bs k := by
  induction as generalizing bs cs with
  | nil =>
    cases List.length_eq_zero_iff.1 hlength.symm
    cases h
    exact ⟨rfl, fun k => rfl⟩
  | cons a as ih =>
    obtain ⟨b, bs, rfl⟩ := List.exists_cons_of_length_eq_add_one hlength.symm
    obtain ⟨c, hc, h⟩ := Option.bind_eq_some_iff.1 h
    obtain ⟨cs, hcs, h⟩ := Option.bind_eq_some_iff.1 h
    cases h
    obtain ⟨hlen, hsum⟩ := ih (Nat.succ.inj hlength) hcs
    refine ⟨congrArg Nat.succ hlen, fun k => ?_⟩
    cases k with
    | zero => exact add?_eq_some_iff.1 hc
    | succ k => exact hsum k

/-- Rows are not added if some sum is too large. -/
theorem addRows?_eq_none {as bs : List Count} (h : addRows? as bs = none) :
    ∃ k, UInt64.size ≤ rowAt as k + rowAt bs k := by
  induction as generalizing bs with
  | nil => cases bs <;> cases h
  | cons a as ih =>
    cases bs with
    | nil => cases h
    | cons b bs =>
      obtain hfirst | ⟨c, -, h⟩ : add? a b = none ∨ ∃ c, add? a b = some c ∧
          (addRows? as bs).bind (fun cs => some (c :: cs)) = none := by
        rw [addRows?] at h
        cases hc : add? a b with
        | none => exact .inl rfl
        | some c => exact .inr ⟨c, rfl, by rwa [hc] at h⟩
      · exact ⟨0, add?_eq_none_iff.1 hfirst⟩
      · cases hrest : addRows? as bs with
        | none =>
          obtain ⟨k, hk⟩ := ih hrest
          exact ⟨k + 1, hk⟩
        | some cs =>
          rw [hrest] at h
          cases h

end Count

namespace FunctionData

variable {a b sum sum' : FunctionData} {records before records₁ records₂ : List FunctionData}
  {ident : Ident} {k : ℕ} {sums : Std.ExtTreeMap Ident FunctionData}

/-- The records about each function agree on its checksum and on the number of its counts, and no
sum of counts exceeds the largest count. -/
structure Addable (records : List FunctionData) : Prop where
  checksum : ∀ a ∈ records, ∀ b ∈ records, a.ident = b.ident → a.checksum = b.checksum
  length : ∀ a ∈ records, ∀ b ∈ records, a.ident = b.ident → a.counts.length = b.counts.length
  sum_le : ∀ ident k, sumAt records ident k ≤ Count.max.toNat

/-- A record is the sum of all records about a function. -/
structure IsSum (sum : FunctionData) (records : List FunctionData) (ident : Ident) : Prop where
  ident_eq : sum.ident = ident
  checksum : ∀ r ∈ records, r.ident = ident → r.checksum = sum.checksum
  length : ∀ r ∈ records, r.ident = ident → r.counts.length = sum.counts.length
  countAt_eq : ∀ k, sum.countAt k = sumAt records ident k

/-- The sums of all records: one for each function that some record is about. -/
structure Totals (sums : Std.ExtTreeMap Ident FunctionData) (records : List FunctionData) :
    Prop where
  occurs : ∀ ident, ident ∈ sums ↔ ∃ r ∈ records, r.ident = ident
  isSum : ∀ (ident : Ident) (sum : FunctionData), sums[ident]? = some sum →
    sum.IsSum records ident

/-- Part of the records can be added up if all of them can. -/
theorem Addable.of_append {later : List FunctionData} (h : Addable (records ++ later)) :
    Addable records where
  checksum a ha b hb := h.checksum a (List.mem_append_left _ ha) b (List.mem_append_left _ hb)
  length a ha b hb := h.length a (List.mem_append_left _ ha) b (List.mem_append_left _ hb)
  sum_le ident k := by
    have hsum := h.sum_le ident k
    rw [sumAt_append] at hsum
    exact (Nat.le_add_right _ _).trans hsum

/-- The sum of some records is determined. -/
theorem IsSum.eq (h : sum.IsSum records ident) (h' : sum'.IsSum records ident)
    (hoccurs : ∃ r ∈ records, r.ident = ident) : sum = sum' := by
  obtain ⟨r, hr, hident⟩ := hoccurs
  have hcounts : sum.counts = sum'.counts :=
    row_ext ((h.length r hr hident).symm.trans (h'.length r hr hident))
      fun k => (h.countAt_eq k).trans (h'.countAt_eq k).symm
  have hchecksum := (h.checksum r hr hident).symm.trans (h'.checksum r hr hident)
  have hidents := h.ident_eq.trans h'.ident_eq.symm
  cases sum
  cases sum'
  cases hidents
  cases hchecksum
  cases hcounts
  rfl

theorem Totals.exists_isSum (h : Totals sums records) {r : FunctionData} (hr : r ∈ records) :
    ∃ sum, sums[r.ident]? = some sum ∧ sum.IsSum records r.ident := by
  have hmem := (h.occurs r.ident).2 ⟨r, hr, rfl⟩
  rw [Std.ExtTreeMap.mem_iff_isSome_getElem?] at hmem
  obtain ⟨sum, hsum⟩ := Option.isSome_iff_exists.1 hmem
  exact ⟨sum, hsum, h.isSum _ _ hsum⟩

theorem Totals.addable (h : Totals sums records) : Addable records where
  checksum a ha b hb hident := by
    obtain ⟨sum, -, hsum⟩ := h.exists_isSum hb
    exact (hsum.checksum a ha hident).trans (hsum.checksum b hb rfl).symm
  length a ha b hb hident := by
    obtain ⟨sum, -, hsum⟩ := h.exists_isSum hb
    exact (hsum.length a ha hident).trans (hsum.length b hb rfl).symm
  sum_le ident k := by
    by_cases hoccurs : ∃ r ∈ records, r.ident = ident
    · obtain ⟨r, hr, rfl⟩ := hoccurs
      obtain ⟨sum, -, hsum⟩ := h.exists_isSum hr
      rw [← hsum.countAt_eq k]
      exact rowAt_le sum.counts k
    · rw [sumAt_eq_zero fun r hr hident => hoccurs ⟨r, hr, hident⟩]
      exact Nat.zero_le _

/-- What some records add up to is determined. -/
theorem Totals.eq {sums' : Std.ExtTreeMap Ident FunctionData} (h : Totals sums records)
    (h' : Totals sums' records) : sums = sums' := by
  refine Std.ExtTreeMap.ext_getElem? fun {ident} => ?_
  by_cases hoccurs : ∃ r ∈ records, r.ident = ident
  · obtain ⟨r, hr, rfl⟩ := hoccurs
    obtain ⟨sum, hsum, his⟩ := h.exists_isSum hr
    obtain ⟨sum', hsum', his'⟩ := h'.exists_isSum hr
    rw [hsum, hsum', his.eq his' ⟨r, hr, rfl⟩]
  · rw [Std.ExtTreeMap.getElem?_eq_none (mt (h.occurs ident).1 hoccurs),
      Std.ExtTreeMap.getElem?_eq_none (mt (h'.occurs ident).1 hoccurs)]

theorem totals_empty : Totals ∅ [] where
  occurs ident := by simp
  isSum ident sum h := by simp at h

/-! ### One record -/

/-- A record adds nothing to the sums of other functions. -/
theorem IsSum.append_other (h : sum.IsSum before ident) (ha : a.ident ≠ ident) :
    sum.IsSum (before ++ [a]) ident where
  ident_eq := h.ident_eq
  checksum := List.forall_mem_append.2
    ⟨h.checksum, List.forall_mem_singleton.2 fun hident => absurd hident ha⟩
  length := List.forall_mem_append.2
    ⟨h.length, List.forall_mem_singleton.2 fun hident => absurd hident ha⟩
  countAt_eq k := by
    rw [h.countAt_eq k, sumAt_append, sumAt_singleton, if_neg ha, Nat.add_zero]

/-- The first record about a function is its own sum. -/
theorem isSum_append_first (hbefore : ∀ r ∈ before, r.ident ≠ a.ident) :
    a.IsSum (before ++ [a]) a.ident where
  ident_eq := rfl
  checksum := List.forall_mem_append.2
    ⟨fun r hr hident => absurd hident (hbefore r hr), List.forall_mem_singleton.2 fun _ => rfl⟩
  length := List.forall_mem_append.2
    ⟨fun r hr hident => absurd hident (hbefore r hr), List.forall_mem_singleton.2 fun _ => rfl⟩
  countAt_eq k := by
    rw [sumAt_append, sumAt_eq_zero hbefore, sumAt_singleton, if_pos rfl, Nat.zero_add]

/-- A later record is added to the sum of those before it. -/
theorem IsSum.append_add {name : String} (h : sum.IsSum before a.ident)
    (hadd : sum.add name a = .ok sum') : sum'.IsSum (before ++ [a]) a.ident := by
  rw [add] at hadd
  split_ifs at hadd with hchecksum hlength
  rw [not_not] at hchecksum hlength
  split at hadd
  · cases hadd
  next counts hrows =>
    cases hadd
    obtain ⟨hlen, hcounts⟩ := Count.addRows?_eq_some hlength hrows
    constructor
    case ident_eq => exact h.ident_eq
    case checksum =>
      exact List.forall_mem_append.2
        ⟨h.checksum, List.forall_mem_singleton.2 fun _ => hchecksum.symm⟩
    case length =>
      exact List.forall_mem_append.2 ⟨fun r hr hident => (h.length r hr hident).trans hlen.symm,
        List.forall_mem_singleton.2 fun _ => hlength.symm.trans hlen.symm⟩
    case countAt_eq =>
      intro k
      rw [sumAt_append, sumAt_singleton, if_pos rfl, ← h.countAt_eq k]
      exact hcounts k

/-- A record that cannot be added to the sum of those before it disagrees with one of them, or
makes a sum too large. -/
theorem IsSum.not_addable {name : String} {e : Error} (h : sum.IsSum before a.ident)
    (hoccurs : ∃ r ∈ before, r.ident = a.ident) (hadd : sum.add name a = .error e) :
    ¬ Addable (before ++ [a]) := by
  intro haddable
  obtain ⟨r, hr, hident⟩ := hoccurs
  have hmem : r ∈ before ++ [a] := List.mem_append_left _ hr
  have hlast : a ∈ before ++ [a] := List.mem_append_right _ List.mem_cons_self
  have hchecksum := (h.checksum r hr hident).symm.trans (haddable.checksum r hmem a hlast hident)
  have hlength := (h.length r hr hident).symm.trans (haddable.length r hmem a hlast hident)
  rw [add, if_neg (not_not_intro hchecksum), if_neg (not_not_intro hlength)] at hadd
  split at hadd
  · next hrows =>
    obtain ⟨k, hk⟩ := Count.addRows?_eq_none hrows
    have hsum := haddable.sum_le a.ident k
    rw [sumAt_append, sumAt_singleton, if_pos rfl, ← h.countAt_eq k] at hsum
    exact absurd (hk.trans hsum) (by decide)
  · cases hadd

/-- The sums with that of one more record. -/
theorem Totals.insert (h : Totals sums before) (hsum : sum.IsSum (before ++ [a]) a.ident) :
    Totals (sums.insert a.ident sum) (before ++ [a]) where
  occurs ident := by
    simp only [Std.ExtTreeMap.mem_insert, Std.LawfulEqOrd.compare_eq_iff_eq, h.occurs,
      List.mem_append, List.mem_singleton, or_and_right, exists_or, exists_eq_left]
    exact or_comm
  isSum ident sum' hident := by
    rw [getElem?_insert_eq] at hident
    split_ifs at hident with ha
    · cases hident
      exact ha ▸ hsum
    · exact (h.isSum ident sum' hident).append_other ha

end FunctionData

namespace Coverage

open FunctionData Logged

variable {name : Ident → String} {sums sums' : Std.ExtTreeMap Ident FunctionData}
  {records before : List FunctionData} {record : FunctionData} {e : Error}

theorem totals_addRecord (h : Totals sums before) (hadd : addRecord name sums record = .ok sums') :
    Totals sums' (before ++ [record]) := by
  rw [addRecord] at hadd
  split at hadd
  · next hnew =>
    cases hadd
    refine h.insert (isSum_append_first fun r hr hident => ?_)
    obtain ⟨sum, hsum, -⟩ := h.exists_isSum hr
    rw [hident, hnew] at hsum
    cases hsum
  · next sum hsum =>
    obtain ⟨sum', hsum', hinsert⟩ := bind_eq_ok.1 hadd
    cases hinsert
    exact h.insert ((h.isSum _ _ hsum).append_add hsum')

theorem not_addable_of_addRecord (h : Totals sums before)
    (hadd : addRecord name sums record = .error e) : ¬ Addable (before ++ [record]) := by
  rw [addRecord] at hadd
  split at hadd
  · cases hadd
  · next sum hsum =>
    have hoccurs : ∃ r ∈ before, r.ident = record.ident := by
      rw [← h.occurs, Std.ExtTreeMap.mem_iff_isSome_getElem?, hsum]
      rfl
    cases hend : sum.add (name record.ident) record with
    | ok sum' =>
      rw [hend] at hadd
      cases hadd
    | error e' => exact (h.isSum _ _ hsum).not_addable hoccurs hend

/-! ### All records -/

theorem totals_foldlM (h : Totals sums before)
    (hend : records.foldlM (addRecord name) sums = .ok sums') :
    Totals sums' (before ++ records) := by
  induction records generalizing sums before with
  | nil =>
    cases hend
    rwa [List.append_nil]
  | cons record records ih =>
    rw [List.foldlM_cons] at hend
    obtain ⟨sums₁, hadd, hend⟩ := bind_eq_ok.1 hend
    have hall := ih (totals_addRecord h hadd) hend
    rwa [List.append_assoc] at hall

theorem not_addable_of_foldlM (h : Totals sums before)
    (hend : records.foldlM (addRecord name) sums = .error e) :
    ¬ Addable (before ++ records) := by
  induction records generalizing sums before with
  | nil => cases hend
  | cons record records ih =>
    rw [← List.singleton_append, ← List.append_assoc]
    rw [List.foldlM_cons] at hend
    cases hadd : addRecord name sums record with
    | error e' => exact fun haddable => not_addable_of_addRecord h hadd haddable.of_append
    | ok sums₁ =>
      rw [hadd] at hend
      exact ih (totals_addRecord h hadd) hend

/-- Records are added up whenever they can be. -/
theorem exists_totals_iff (name : Ident → String) :
    (∃ sums, totals name records = .ok sums) ↔ Addable records := by
  constructor
  · rintro ⟨sums, hsums⟩
    exact (totals_foldlM totals_empty hsums).addable
  · intro haddable
    cases hend : totals name records with
    | ok sums => exact ⟨sums, rfl⟩
    | error e => exact absurd haddable (not_addable_of_foldlM totals_empty hend)

theorem totals_eq_ok_iff (name : Ident → String) :
    totals name records = .ok sums ↔ Totals sums records := by
  constructor
  · exact fun h => totals_foldlM totals_empty h
  · intro h
    obtain ⟨sums', hsums⟩ := (exists_totals_iff name).2 h.addable
    rw [hsums, h.eq (totals_foldlM totals_empty hsums)]

end Coverage

/-! ### Data files -/

namespace FunctionData

variable {records₁ records₂ : List FunctionData} {sums : Std.ExtTreeMap Ident FunctionData}

/-- Two lists of records have the same checksums and the same numbers of counts for each function,
and their counts add up to the same. -/
structure SameSums (records₁ records₂ : List FunctionData) : Prop where
  checksum : ∀ ident checksum, (∃ r ∈ records₁, r.ident = ident ∧ r.checksum = checksum) ↔
    ∃ r ∈ records₂, r.ident = ident ∧ r.checksum = checksum
  length : ∀ ident length, (∃ r ∈ records₁, r.ident = ident ∧ r.counts.length = length) ↔
    ∃ r ∈ records₂, r.ident = ident ∧ r.counts.length = length
  sum : ∀ ident k, sumAt records₁ ident k = sumAt records₂ ident k

theorem SameSums.symm (h : SameSums records₁ records₂) : SameSums records₂ records₁ where
  checksum ident checksum := (h.checksum ident checksum).symm
  length ident length := (h.length ident length).symm
  sum ident k := (h.sum ident k).symm

/-- The order of the records does not matter. -/
theorem SameSums.of_perm (h : records₁.Perm records₂) : SameSums records₁ records₂ where
  checksum ident checksum := by simp only [h.mem_iff]
  length ident length := by simp only [h.mem_iff]
  sum ident k := ((h.filter _).map _).sum_eq

theorem SameSums.exists_iff (h : SameSums records₁ records₂) (ident : Ident) :
    (∃ r ∈ records₁, r.ident = ident) ↔ ∃ r ∈ records₂, r.ident = ident := by
  constructor
  · rintro ⟨r, hr, hident⟩
    obtain ⟨r', hr', hident', -⟩ := (h.checksum ident r.checksum).1 ⟨r, hr, hident, rfl⟩
    exact ⟨r', hr', hident'⟩
  · rintro ⟨r, hr, hident⟩
    obtain ⟨r', hr', hident', -⟩ := (h.checksum ident r.checksum).2 ⟨r, hr, hident, rfl⟩
    exact ⟨r', hr', hident'⟩

theorem SameSums.totals (h : SameSums records₁ records₂) (htotals : Totals sums records₁) :
    Totals sums records₂ where
  occurs ident := (htotals.occurs ident).trans (h.exists_iff ident)
  isSum ident sum hsum := by
    have hfirst := htotals.isSum ident sum hsum
    refine ⟨hfirst.ident_eq, fun r hr hident => ?_, fun r hr hident => ?_, fun k => ?_⟩
    · obtain ⟨r', hr', hident', hchecksum⟩ := (h.checksum ident r.checksum).2 ⟨r, hr, hident, rfl⟩
      exact hchecksum.symm.trans (hfirst.checksum r' hr' hident')
    · obtain ⟨r', hr', hident', hlength⟩ :=
        (h.length ident r.counts.length).2 ⟨r, hr, hident, rfl⟩
      exact hlength.symm.trans (hfirst.length r' hr' hident')
    · rw [hfirst.countAt_eq k, h.sum ident k]

end FunctionData

namespace Coverage

open FunctionData Logged

variable {c c' : Coverage} {file file₁ file₂ : DataFile} {log log' : List Warning}
  {bytes bytes₁ bytes₂ : List UInt8}

/-- A data file is merged if it belongs to the notes, if its records can be added up, and if every
sum can be merged. -/
theorem mergeFile_eq_ok_iff : c.mergeFile file log = .ok c' log' ↔
    file.version = c.version ∧ file.stamp = c.stamp ∧
      ∃ sums, Totals sums file.functions ∧
        ∃ merged, (sums.toList.map Prod.snd).foldlM mergeFunction c log = .ok merged log' ∧
          c' = { merged with
            runs := file.runs, programs := file.programs.length, status := .merged } := by
  rw [mergeFile]
  dsimp only
  by_cases hversion : file.version = c.version
  swap
  · rw [if_pos hversion]
    refine ⟨?_, fun h => absurd h.1 hversion⟩
    rintro ⟨⟩
  by_cases hstamp : file.stamp = c.stamp
  swap
  · rw [if_neg (not_not_intro hversion), if_pos hstamp]
    refine ⟨?_, fun h => absurd h.2.1 hstamp⟩
    rintro ⟨⟩
  rw [if_neg (not_not_intro hversion), if_neg (not_not_intro hstamp), bind_eq_ok_iff]
  constructor
  · rintro ⟨sums, log₁, hexcept, h⟩
    obtain ⟨hsums, rfl⟩ := ofExcept_eq_ok_iff.1 hexcept
    obtain ⟨merged, log₂, hmerged, h⟩ := bind_eq_ok_iff.1 h
    cases h
    exact ⟨hversion, hstamp, sums, (totals_eq_ok_iff _).1 (mapError_eq_ok.1 hsums), merged, hmerged,
      rfl⟩
  · rintro ⟨-, -, sums, hsums, merged, hmerged, rfl⟩
    refine ⟨sums, log, ofExcept_eq_ok_iff.2 ⟨?_, rfl⟩, bind_eq_ok_iff.2 ⟨merged, _, hmerged, rfl⟩⟩
    rw [(totals_eq_ok_iff c.nameOf).2 hsums]
    rfl

/-- What is written into a data file is decoded. -/
theorem decodeData_dataFile {o : ByteOrder} {units : List DataUnit}
    (hunits : ∀ u ∈ units, u.Writable o) (horder : DataUnit.Ordered none units)
    (hobject : ∃ s, .object s ∈ units) (version : Version) (stamp : UInt32) (marked : Bool) :
    decodeData (Writer.dataFile o version stamp units marked) =
      .ok (DataFile.ofUnits version stamp units) := by
  have hheader := Reader.ofBytes_header o .data version stamp
    (units.flatMap (Writer.dataUnit o) ++ Writer.ending o marked)
  rw [← List.append_assoc] at hheader
  obtain ⟨r', hfile⟩ := Decoder.dataFile_eq_ok hunits horder hobject
    (r := ⟨.data, o, version, stamp, 12, _⟩) rfl rfl rfl
  refine bind_eq_ok.2 ⟨_, hheader, ?_⟩
  rw [hfile]
  rfl

theorem withData_eq_ok_iff : c.withData bytes log = .ok c' log' ↔
    ∃ file, decodeData bytes = .ok file ∧ c.mergeFile file log = .ok c' log' := by
  rw [withData, passing_eq_ok_iff, bind_eq_ok_iff]
  constructor
  · rintro ⟨file, log₁, hexcept, h⟩
    obtain ⟨hfile, rfl⟩ := ofExcept_eq_ok_iff.1 hexcept
    exact ⟨file, hfile, h⟩
  · rintro ⟨file, hfile, h⟩
    exact ⟨file, log, ofExcept_eq_ok_iff.2 ⟨hfile, rfl⟩, h⟩

/-- Data files that agree in all but the records, and whose records have the same sums, have the
same effect. -/
theorem mergeFile_congr (hversion : file₁.version = file₂.version)
    (hstamp : file₁.stamp = file₂.stamp) (hobjects : file₁.objects = file₂.objects)
    (hprograms : file₁.programs = file₂.programs)
    (hsums : SameSums file₁.functions file₂.functions) :
    c.mergeFile file₁ log = .ok c' log' ↔ c.mergeFile file₂ log = .ok c' log' := by
  have htotals (sums : Std.ExtTreeMap Ident FunctionData) :
      Totals sums file₁.functions ↔ Totals sums file₂.functions :=
    ⟨hsums.totals, hsums.symm.totals⟩
  simp only [mergeFile_eq_ok_iff, htotals, hversion, hstamp, hprograms, DataFile.runs, hobjects]

/-- Records are added up exactly if they agree and no sum is too large, and then each function that
occurs has its exact sums. So data files whose records have the same sums, with the same version,
stamp and summaries, can be merged into the same units, with the same results. -/
theorem only_sums_matter :
    (∀ (name : Ident → String) (records : List FunctionData),
      ((∃ sums, totals name records = .ok sums) ↔ Addable records) ∧
        ∀ sums, totals name records = .ok sums → Totals sums records) ∧
    ∀ (c : Coverage) (bytes₁ bytes₂ : List UInt8) (file₁ file₂ : DataFile),
      decodeData bytes₁ = .ok file₁ → decodeData bytes₂ = .ok file₂ →
      file₁.version = file₂.version → file₁.stamp = file₂.stamp →
      file₁.objects = file₂.objects → file₁.programs = file₂.programs →
      SameSums file₁.functions file₂.functions →
        ∀ log c' log',
          c.withData bytes₁ log = .ok c' log' ↔ c.withData bytes₂ log = .ok c' log' := by
  refine ⟨fun name records => ⟨exists_totals_iff name, fun sums => (totals_eq_ok_iff name).1⟩, ?_⟩
  intro c bytes₁ bytes₂ file₁ file₂ hfile₁ hfile₂ hversion hstamp hobjects hprograms hsums
    log c' log'
  simp only [withData_eq_ok_iff, hfile₁, hfile₂, Except.ok.injEq, exists_eq_left']
  exact mergeFile_congr hversion hstamp hobjects hprograms hsums

/-- A unit with a single function. -/
def chainUnit : Coverage where
  paths := ⟨⟨"u.gcno"⟩, ⟨"u.gcda"⟩, "u"⟩
  version := ⟨0⟩
  stamp := 5
  functions := (∅ : Std.ExtTreeMap Ident FunctionGraph).insert ⟨1⟩ FunctionGraph.chain
  symbols := .empty
  runs := 0
  programs := 0
  status := .missing

/-- What two programs leave that ran the function of `chainUnit`. -/
def twoPrograms : List DataUnit :=
  [.function ⟨⟨1⟩, 0, [3, 3]⟩, .function ⟨⟨1⟩, 0, [1, 1]⟩, .object ⟨0, 2, 2, 8, 4, 4⟩]

/-- The same counts, left by one program. -/
def oneProgram : List DataUnit :=
  [.function ⟨⟨1⟩, 0, [4, 4]⟩, .object ⟨0, 2, 2, 8, 4, 4⟩]

theorem sameSums_twoPrograms : SameSums (DataFile.ofUnits ⟨0⟩ 5 twoPrograms).functions
    (DataFile.ofUnits ⟨0⟩ 5 oneProgram).functions where
  checksum ident checksum := by
    simp [DataFile.ofUnits, twoPrograms, oneProgram, DataUnit.function?]
  length ident length := by
    simp [DataFile.ofUnits, twoPrograms, oneProgram, DataUnit.function?]
  sum ident k := by
    change sumAt ([⟨⟨1⟩, 0, [3, 3]⟩] ++ [⟨⟨1⟩, 0, [1, 1]⟩]) ident k =
      sumAt [⟨⟨1⟩, 0, [4, 4]⟩] ident k
    simp only [sumAt_append, sumAt_singleton]
    split
    · rcases k with _ | _ | k <;> rfl
    · rfl

/-- The counts of two programs are merged like those of one that ran for both. -/
theorem only_sums_matter_twoPrograms :
    ∃ c', chainUnit.withData (Writer.dataFile .big ⟨0⟩ 5 twoPrograms true) [] = .ok c' [] ∧
      chainUnit.withData (Writer.dataFile .little ⟨0⟩ 5 oneProgram false) [] = .ok c' [] := by
  have htwo : decodeData (Writer.dataFile .big ⟨0⟩ 5 twoPrograms true) =
      .ok (DataFile.ofUnits ⟨0⟩ 5 twoPrograms) :=
    decodeData_dataFile (by decide) (by decide) ⟨⟨0, 2, 2, 8, 4, 4⟩, by decide⟩ ..
  have hone : decodeData (Writer.dataFile .little ⟨0⟩ 5 oneProgram false) =
      .ok (DataFile.ofUnits ⟨0⟩ 5 oneProgram) :=
    decodeData_dataFile (by decide) (by decide) ⟨⟨0, 2, 2, 8, 4, 4⟩, by decide⟩ ..
  obtain ⟨c', hmerge⟩ :
      ∃ c', chainUnit.mergeFile (DataFile.ofUnits ⟨0⟩ 5 twoPrograms) [] = .ok c' [] := ⟨_, by cbv⟩
  have hc' := withData_eq_ok_iff.2 ⟨_, htwo, hmerge⟩
  exact ⟨c', hc', (only_sums_matter.2 chainUnit _ _ _ _ htwo hone rfl rfl rfl rfl
    sameSums_twoPrograms [] c' []).1 hc'⟩

end Coverage

end CoverageFlow
