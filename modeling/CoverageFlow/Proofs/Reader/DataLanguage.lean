import CoverageFlow.Proofs.Reader.Data
import CoverageFlow.Proofs.Reader.Word

/-!
# The language of data files

What follows the header of a data file is accepted exactly if it is made of complete units in the
order of the format: a program summary stands behind an object summary, with nothing but other
program summaries in between, and there is an object summary at all. A word of zeros may mark the
end of the file. Anything else is refused as cut off or as a record out of place.

A unit may hold more than is read of it, so many files are read as the same units. Units are
therefore given as they stand in a file, by the words in the bodies of their records, and what they
hold is a function of these words.

## Main definitions

* `FramedUnit`: a unit by the words in its records, with `FramedUnit.value?`, what it holds.
* `FramedUnit.Admissible`: the units of a data file.

## Main results

* `Decoder.realizes_dataUnit`: the next unit.
* `Decoder.dataFile_eq_ok_iff`: which data files are read, and as what.
-/

namespace CoverageFlow

/-- A unit as it stands in a file, by the words in the bodies of its records. -/
inductive FramedUnit where
  | function (key counts : List UInt32)
  | object (body : List UInt32)
  | program (body : List UInt32)

namespace FramedUnit

/-- The words of the records of a unit. -/
def words : FramedUnit → List UInt32
  | function key counts =>
    Writer.recordWords .function key ++ Writer.recordWords .arcCounts counts
  | object body => Writer.recordWords .objectSummary body
  | program body => Writer.recordWords .programSummary body

/-- The bodies of a unit hold what they must, and their lengths are words. -/
def Complete : FramedUnit → Prop
  | function key counts =>
    2 ≤ key.length ∧ key.length < UInt32.size ∧ counts.length < UInt32.size
  | object body | program body => 9 ≤ body.length ∧ body.length < UInt32.size

/-- Words in pairs as numbers, the low word first. A single word at the end is left out. -/
def longs : List UInt32 → List UInt64
  | low :: high :: ws => UInt64.ofNat (high.toNat * UInt32.size + low.toNat) :: longs ws
  | _ => []

/-- The summary that a body of nine or more words holds: three words and three long numbers. -/
def summary? : List UInt32 → Option Summary
  | checksum :: num :: runs :: rest =>
    match longs rest with
    | sum :: max :: sumMax :: _ => some { checksum, num, runs, sum, max, sumMax }
    | _ => none
  | _ => none

/-- The unit that the records hold, unless a body is too short. -/
def value? : FramedUnit → Option DataUnit
  | function (ident :: checksum :: _) counts =>
    some (.function { ident := ⟨ident⟩, checksum, counts := longs counts })
  | function _ _ => none
  | object body => (summary? body).map .object
  | program body => (summary? body).map .program

theorem length_longs : (ws : List UInt32) → (longs ws).length = ws.length / 2
  | [] => rfl
  | [_] => by
    rw [longs, List.length_singleton]
    · rfl
    · rintro _ _ _ ⟨⟩
  | _ :: _ :: ws => by
    rw [longs, List.length_cons, length_longs ws, List.length_cons, List.length_cons]
    omega

theorem longs_eq_cons_iff {ws : List UInt32} {n : UInt64} {ns : List UInt64} :
    longs ws = n :: ns ↔ ∃ low high rest, ws = low :: high :: rest ∧
      n = UInt64.ofNat (high.toNat * UInt32.size + low.toNat) ∧ longs rest = ns := by
  constructor
  · intro h
    unfold longs at h
    split at h
    · next low high rest =>
      cases h
      exact ⟨low, high, rest, rfl, rfl, rfl⟩
    · cases h
  · rintro ⟨low, high, rest, rfl, rfl, rfl⟩
    rfl

theorem summary?_eq_some_iff {ws : List UInt32} {s : Summary} : summary? ws = some s ↔
    ∃ rest numbers, ws = s.checksum :: s.num :: s.runs :: rest ∧
      longs rest = s.sum :: s.max :: s.sumMax :: numbers := by
  constructor
  · intro h
    unfold summary? at h
    split at h
    · next checksum num runs rest =>
      split at h
      · next sum max sumMax numbers hnumbers =>
        cases h
        exact ⟨rest, numbers, rfl, hnumbers⟩
      · cases h
    · cases h
  · rintro ⟨rest, numbers, rfl, hnumbers⟩
    rw [summary?, hnumbers]

/-- Nine words are a summary. -/
theorem exists_summary?_iff {ws : List UInt32} : (∃ s, summary? ws = some s) ↔ 9 ≤ ws.length := by
  simp only [summary?_eq_some_iff]
  constructor
  · rintro ⟨s, rest, numbers, rfl, hnumbers⟩
    have hlength := congrArg List.length hnumbers
    rw [length_longs] at hlength
    simp only [List.length_cons] at hlength ⊢
    omega
  · intro h
    match ws with
    | checksum :: num :: runs :: rest =>
      have hlength := length_longs rest
      simp only [List.length_cons] at h
      match hnumbers : longs rest with
      | sum :: max :: sumMax :: numbers =>
        exact ⟨⟨checksum, num, runs, sum, max, sumMax⟩, rest, numbers, rfl, hnumbers⟩
      | [] | [_] | [_, _] =>
        rw [hnumbers] at hlength
        simp only [List.length_cons, List.length_nil] at hlength
        omega
    | [] | [_] | [_, _] => simp at h

/-- Program summaries. -/
def IsProgram : FramedUnit → Prop
  | program _ => True
  | function _ _ | object _ => False

/-- A program summary may follow: the unit before it is an object summary or a program summary. -/
def AllowsProgram : Option FramedUnit → Prop
  | some (object _) | some (program _) => True
  | some (function _ _) | none => False

/-- The units of a data file. -/
structure Admissible (units : List FramedUnit) : Prop where
  complete : ∀ u ∈ units, u.Complete
  /-- The nearest unit before a program summary that is none itself is an object summary. -/
  program : ∀ before body after, units = before ++ program body :: after →
    ∃ earlier summary programs, before = earlier ++ object summary :: programs ∧
      ∀ u ∈ programs, u.IsProgram
  object : ∃ body, object body ∈ units

/-- Each program summary stands where one may follow. -/
def Ordered : Option FramedUnit → List FramedUnit → Prop
  | _, [] => True
  | previous, u :: units => (u.IsProgram → AllowsProgram previous) ∧ Ordered (some u) units

/-- Each program summary stands where one may follow if the nearest unit before it that is none
itself is an object summary. -/
theorem ordered_iff {previous : Option FramedUnit} {units : List FramedUnit} :
    Ordered previous units ↔ ∀ before body after, units = before ++ program body :: after →
      (∃ earlier summary programs, before = earlier ++ object summary :: programs ∧
        ∀ u ∈ programs, u.IsProgram) ∨ AllowsProgram previous ∧ ∀ u ∈ before, u.IsProgram := by
  induction units generalizing previous with
  | nil => exact iff_of_true trivial fun before body after h => absurd h (by simp)
  | cons u units ih =>
    rw [Ordered, ih]
    constructor
    · rintro ⟨hu, hunits⟩ before body after h
      cases before with
      | nil =>
        obtain ⟨rfl, rfl⟩ := List.cons.inj h
        exact .inr ⟨hu trivial, by rintro _ ⟨⟩⟩
      | cons _ before =>
        obtain ⟨rfl, hrest⟩ := List.cons.inj h
        obtain ⟨earlier, summary, programs, rfl, hprograms⟩ | ⟨hallowed, hbefore⟩ :=
          hunits before body after hrest
        · exact .inl ⟨u :: earlier, summary, programs, rfl, hprograms⟩
        · match u, hu with
          | object summary, _ => exact .inl ⟨[], summary, before, rfl, hbefore⟩
          | program _, hu =>
            exact .inr ⟨hu trivial, List.forall_mem_cons.2 ⟨trivial, hbefore⟩⟩
    · intro h
      refine ⟨fun hu => ?_, fun before body after hunits => ?_⟩
      · match u, hu with
        | program body, _ =>
          obtain ⟨earlier, summary, programs, hnil, -⟩ | ⟨hallowed, -⟩ := h [] body units rfl
          · cases earlier <;> cases hnil
          · exact hallowed
      · obtain ⟨earlier, summary, programs, heq, hprograms⟩ | ⟨-, hbefore⟩ :=
          h (u :: before) body after (by rw [hunits]; rfl)
        · cases earlier with
          | nil =>
            obtain ⟨rfl, rfl⟩ := List.cons.inj heq
            exact .inr ⟨trivial, hprograms⟩
          | cons _ earlier =>
            obtain ⟨rfl, rfl⟩ := List.cons.inj heq
            exact .inl ⟨earlier, summary, programs, rfl, hprograms⟩
        · obtain ⟨hu, hprograms⟩ := List.forall_mem_cons.1 hbefore
          match u, hu with
          | program _, _ => exact .inr ⟨trivial, hprograms⟩

theorem admissible_iff {units : List FramedUnit} : Admissible units ↔
    (∀ u ∈ units, u.Complete) ∧ Ordered none units ∧ ∃ body, object body ∈ units := by
  rw [ordered_iff]
  constructor
  · rintro ⟨hunits, hprogram, hobject⟩
    exact ⟨hunits, fun before body after h => .inl (hprogram before body after h), hobject⟩
  · rintro ⟨hunits, hprogram, hobject⟩
    exact ⟨hunits, fun before body after h => (hprogram before body after h).resolve_right
      fun h => h.1, hobject⟩

end FramedUnit

namespace Decoder

open FramedUnit

variable {E : Set Error} {o : ByteOrder} {stray : List UInt8}

/-! ### Bodies -/

theorem realizes_nextCount (hE : .endOfFile ∈ E) :
    Realizes E (Reader.Shows o []) (Option.Rel Eq) nextCount fun x n y =>
      n = none ∧ x.length < 2 ∧ y = x ∨ ∃ low high,
        n = some (UInt64.ofNat (high.toNat * UInt32.size + low.toNat)) ∧ x = low :: high :: y := by
  intro x r hr
  have hlength := hr.length_unread
  rw [List.length_nil] at hlength
  rw [nextCount, run_get_bind]
  by_cases hx : x.length < 2
  · rw [if_pos (by rw [Reader.remaining]; omega)]
    refine .ok .none hr (.inl ⟨rfl, hx, rfl⟩) ?_
    rintro n y (⟨rfl, -, rfl⟩ | ⟨low, high, -, rfl⟩)
    · exact ⟨rfl, rfl⟩
    · simp only [List.length_cons] at hx
      omega
  · rw [if_neg (by rw [Reader.remaining]; omega)]
    refine ((realizes_long hE).map (W := Option.Rel Eq) (k := some) (fun _ _ => .some) x r hr).congr
      fun n y => ?_
    constructor
    · rintro ⟨_, ⟨low, high, rfl, rfl⟩, rfl⟩
      exact .inr ⟨low, high, rfl, rfl⟩
    · rintro (⟨-, hshort, -⟩ | ⟨low, high, rfl, rfl⟩)
      · exact absurd hshort hx
      · exact ⟨_, ⟨low, high, rfl, rfl⟩, rfl⟩

/-- The body of a record of counts is read as numbers of two words each. -/
theorem exists_iterates_nextCount_iff {previous : Option Count} {x : List UInt32}
    {cs : List Count} : (∃ y, Iterates (fun _ x n y => n = none ∧ x.length < 2 ∧ y = x ∨
      ∃ low high, n = some (UInt64.ofNat (high.toNat * UInt32.size + low.toNat)) ∧
        x = low :: high :: y) previous x cs y) ↔ longs x = cs := by
  constructor
  · rintro ⟨y, h⟩
    induction h with
    | stop last =>
      obtain ⟨-, hx, -⟩ | ⟨_, _, ⟨⟩, -⟩ := last
      refine List.length_eq_zero_iff.1 ?_
      rw [length_longs]
      omega
    | next first _ ih =>
      obtain ⟨⟨⟩, -⟩ | ⟨low, high, ⟨⟩, rfl⟩ := first
      rw [longs, ih]
  · rintro rfl
    fun_induction longs x generalizing previous with
    | case1 low high x ih =>
      obtain ⟨y, hy⟩ := @ih (some _)
      exact ⟨y, .next (.inr ⟨low, high, rfl, rfl⟩) hy⟩
    | case2 x hx =>
      refine ⟨x, .stop (.inl ⟨rfl, ?_, rfl⟩)⟩
      match x, hx with
      | [], _ => exact Nat.two_pos
      | [_], _ => exact Nat.one_lt_two
      | low :: high :: x, hx => exact absurd rfl (hx low high x)

section

variable {α : Type} {body : Reader} {ws : List UInt32}

/-- A step on the body of a record yields a value that the body states. -/
theorem realizes_within_stating {p : Decoder α} {F : List UInt32 → α → List UInt32 → Prop}
    (hp : Realizes E (Reader.Shows o []) Eq p F) {S : List UInt32 → α → Prop}
    (hS : ∀ ws a, (∃ rest, F ws a rest) ↔ S ws a) (hbody : body.Shows o [] ws) :
    Realizes E (Reader.Shows o stray) (fun a ws => S ws a) (within body p)
      fun x b y => b = ws ∧ (∃ a, S ws a) ∧ y = x := by
  intro x r hr
  have hrun := realizes_within hp hbody x r hr
  constructor
  case sound =>
    intro a r' h
    obtain ⟨_, y, rfl, hy, hF, rfl⟩ := hrun.sound a r' h
    have ha := (hS ws a).1 hF
    exact ⟨ws, y, ha, hy, rfl, ⟨a, ha⟩, rfl⟩
  case complete =>
    rintro _ y ⟨rfl, ⟨a, ha⟩, rfl⟩
    obtain ⟨_, r', h, rfl, hy⟩ := hrun.complete a y ⟨(hS _ a).2 ha, rfl⟩
    exact ⟨_, r', h, ha, hy⟩
  case fails => exact hrun.fails

theorem realizes_within_functionKey (hE : .endOfFile ∈ E) (hbody : body.Shows o [] ws) :
    Realizes E (Reader.Shows o stray) (fun key ws => ∃ more, ws = key.1.val :: key.2 :: more)
      (within body functionKey) fun x b y => b = ws ∧ 2 ≤ ws.length ∧ y = x := by
  have hkey := (@realizes_word E o [] hE).bind_eq fun ident =>
    (realizes_word hE).map_eq fun checksum => (Ident.mk ident, checksum)
  refine (realizes_within_stating (S := fun ws key => ∃ more, ws = key.1.val :: key.2 :: more)
    hkey (fun ws key => ?_) hbody).congr fun x b y => ?_
  · constructor
    · rintro ⟨more, ident, _, rfl, checksum, rfl, rfl⟩
      exact ⟨more, rfl⟩
    · rintro ⟨more, rfl⟩
      exact ⟨more, _, _, rfl, _, rfl, rfl⟩
  · refine and_congr_right fun _ => and_congr_left fun _ => ?_
    constructor
    · rintro ⟨key, more, rfl⟩
      exact Nat.le_add_left 2 more.length
    · intro h
      match ws with
      | ident :: checksum :: more => exact ⟨(⟨ident⟩, checksum), more, rfl⟩

theorem realizes_within_counts (hE : .endOfFile ∈ E) (hbody : body.Shows o [] ws) :
    Realizes E (Reader.Shows o stray) (fun cs ws => longs ws = cs) (within body counts)
      fun x b y => b = ws ∧ y = x := by
  have hcounts := Realizes.repeatWhile (h := fun _ => yields_nextCount)
    (F := fun _ => _) (fun _ _ _ => realizes_nextCount (o := o) hE) .none
  rw [List.forall₂_eq_eq_eq] at hcounts
  refine (realizes_within_stating (S := fun ws cs => longs ws = cs) hcounts
    (fun _ _ => exists_iterates_nextCount_iff) hbody).congr fun x b y => ?_
  simp only [exists_eq', true_and]

theorem realizes_within_summary (hE : .endOfFile ∈ E) (hbody : body.Shows o [] ws) :
    Realizes E (Reader.Shows o stray) (fun s ws => summary? ws = some s) (within body summary)
      fun x b y => b = ws ∧ 9 ≤ ws.length ∧ y = x := by
  have hsummary := (@realizes_word E o [] hE).bind_eq fun checksum =>
    (realizes_word hE).bind_eq fun num => (realizes_word hE).bind_eq fun runs =>
    (realizes_long hE).bind_eq fun sum => (realizes_long hE).bind_eq fun max =>
    (realizes_long hE).map_eq fun sumMax => Summary.mk checksum num runs sum max sumMax
  refine (realizes_within_stating (S := fun ws s => summary? ws = some s) hsummary
    (fun ws s => ?_) hbody).congr fun x b y => by rw [exists_summary?_iff]
  rw [summary?_eq_some_iff]
  simp only [longs_eq_cons_iff]
  constructor
  · rintro ⟨more, checksum, _, rfl, num, _, rfl, runs, _, rfl, sum, _, ⟨sum₀, sum₁, rfl, rfl⟩, max,
      _, ⟨max₀, max₁, rfl, rfl⟩, sumMax, ⟨sumMax₀, sumMax₁, rfl, rfl⟩, rfl⟩
    exact ⟨_, _, rfl, sum₀, sum₁, _, rfl, rfl, max₀, max₁, _, rfl, rfl, sumMax₀, sumMax₁, _, rfl,
      rfl, rfl⟩
  · rintro ⟨_, _, rfl, sum₀, sum₁, _, rfl, hsum, max₀, max₁, _, rfl, hmax, sumMax₀, sumMax₁, more,
      rfl, hsumMax, rfl⟩
    exact ⟨more, _, _, rfl, _, _, rfl, _, _, rfl, _, _, ⟨sum₀, sum₁, rfl, hsum⟩, _, _,
      ⟨max₀, max₁, rfl, hmax⟩, _, ⟨sumMax₀, sumMax₁, rfl, hsumMax⟩, rfl⟩

end

/-! ### Units -/

/-- A unit that is read means the records that hold it. -/
abbrev Holds (unit : DataUnit) (u : FramedUnit) : Prop :=
  u.value? = some unit

/-- What may be wrong with a data file. -/
def dataFaults : Set Error :=
  {e | e = .endOfFile ∨ ∃ tag reading, e = .unexpectedTag tag reading}

theorem endOfFile_mem_dataFaults : .endOfFile ∈ dataFaults := .inl rfl

theorem unexpectedTag_mem_dataFaults (tag : Tag) (reading : Expectation) :
    .unexpectedTag tag reading ∈ dataFaults :=
  .inr ⟨tag, reading, rfl⟩

theorem allowsProgram_iff {previous : Option DataUnit} {u : Option FramedUnit}
    (h : Option.Rel Holds previous u) : allowsProgram previous = true ↔ AllowsProgram u := by
  cases h with
  | none => exact iff_of_false Bool.false_ne_true id
  | some hu =>
    rename_i unit u
    match u, hu with
    | .function (ident :: checksum :: more) counts, rfl => exact iff_of_false Bool.false_ne_true id
    | .object body, hu =>
      obtain ⟨s, -, rfl⟩ := Option.map_eq_some_iff.1 hu
      exact iff_of_true rfl trivial
    | .program body, hu =>
      obtain ⟨s, -, rfl⟩ := Option.map_eq_some_iff.1 hu
      exact iff_of_true rfl trivial

/-- What follows the first record of a unit, which has a given tag and body. -/
inductive UnitEnds (previous : Option FramedUnit) :
    Tag × List UInt32 → List UInt32 → Option FramedUnit → List UInt32 → Prop
  | function {key counts y : List UInt32} (hkey : 2 ≤ key.length)
      (hcounts : counts.length < UInt32.size) : UnitEnds previous (.function, key)
        (Writer.recordWords .arcCounts counts ++ y) (some (.function key counts)) y
  | object {body y : List UInt32} (hbody : 9 ≤ body.length) :
      UnitEnds previous (.objectSummary, body) y (some (.object body)) y
  | program {body y : List UInt32} (hallowed : AllowsProgram previous) (hbody : 9 ≤ body.length) :
      UnitEnds previous (.programSummary, body) y (some (.program body)) y

/-- A unit is its first record and what follows it. -/
theorem exists_unitEnds_iff {previous : Option FramedUnit} {x y : List UInt32}
    {b : Option FramedUnit} : (∃ (record : Tag × List UInt32) (z : List UInt32),
      (x = Writer.recordWords record.1 record.2 ++ z ∧ record.2.length < UInt32.size) ∧
        UnitEnds previous record z b y) ↔
    ∃ u, b = some u ∧ u.Complete ∧ (u.IsProgram → AllowsProgram previous) ∧ x = u.words ++ y := by
  constructor
  · rintro ⟨_, _, ⟨rfl, hlength⟩, ⟨hkey, hcounts⟩ | hbody | ⟨hallowed, hbody⟩⟩
    · exact ⟨_, rfl, ⟨hkey, hlength, hcounts⟩, False.elim, (List.append_assoc ..).symm⟩
    · exact ⟨_, rfl, ⟨hbody, hlength⟩, False.elim, rfl⟩
    · exact ⟨_, rfl, ⟨hbody, hlength⟩, fun _ => hallowed, rfl⟩
  · rintro ⟨key, rfl, hcomplete, hprogram, rfl⟩
    match key, hcomplete, hprogram with
    | .function key counts, ⟨hkey, hlength, hcounts⟩, _ =>
      exact ⟨(.function, key), _, ⟨List.append_assoc .., hlength⟩, .function hkey hcounts⟩
    | .object body, ⟨hbody, hlength⟩, _ =>
      exact ⟨(.objectSummary, body), y, ⟨rfl, hlength⟩, .object hbody⟩
    | .program body, ⟨hbody, hlength⟩, hallowed =>
      exact ⟨(.programSummary, body), y, ⟨rfl, hlength⟩, .program (hallowed trivial) hbody⟩

theorem realizes_functionUnit {body : Reader} {ws : List UInt32} (hbody : body.Shows o [] ws) :
    Realizes dataFaults (Reader.Shows o stray) (Option.Rel Holds)
      (do
        let (ident, checksum) ← within body functionKey
        let body ← recordWithTag Tag.arcCounts .arcCounts
        let counts ← within body counts
        return some (.function { ident, checksum, counts }))
      fun x u y => 2 ≤ ws.length ∧ ∃ counts, counts.length < UInt32.size ∧
        x = Writer.recordWords .arcCounts counts ++ y ∧ u = some (.function ws counts) := by
  refine ((realizes_within_functionKey endOfFile_mem_dataFaults hbody).bind
    (G := fun key x u y => ∃ counts, counts.length < UInt32.size ∧
      x = Writer.recordWords .arcCounts counts ++ y ∧ u = some (.function key counts))
    fun key ws hkey => ?_).congr fun x u z => ?_
  · obtain ⟨more, rfl⟩ := hkey
    refine ((realizes_recordWithTag endOfFile_mem_dataFaults unexpectedTag_mem_dataFaults _ _).bind
      fun body counts hcounts => (realizes_within_counts endOfFile_mem_dataFaults hcounts).map
        (W := Option.Rel Holds)
        (k := fun counts => some (.function (key.1.val :: key.2 :: more) counts))
        fun cs counts hcs => .some (by rw [Holds, value?, hcs])).congr fun x u z => ?_
    constructor
    · rintro ⟨counts, _, ⟨rfl, hlength⟩, _, ⟨rfl, rfl⟩, rfl⟩
      exact ⟨_, hlength, rfl, rfl⟩
    · rintro ⟨counts, hlength, rfl, rfl⟩
      exact ⟨counts, z, ⟨rfl, hlength⟩, counts, ⟨rfl, rfl⟩, rfl⟩
  · constructor
    · rintro ⟨_, _, ⟨rfl, hlength, rfl⟩, h⟩
      exact ⟨hlength, h⟩
    · rintro ⟨hlength, h⟩
      exact ⟨_, _, ⟨rfl, hlength, rfl⟩, h⟩

/-- A summary is read through its body, whatever unit it becomes. -/
theorem realizes_summaryUnit {body : Reader} {ws : List UInt32} (hbody : body.Shows o [] ws)
    (f : Summary → DataUnit) (g : List UInt32 → FramedUnit)
    (hfg : ∀ ws, (g ws).value? = (summary? ws).map f) :
    Realizes dataFaults (Reader.Shows o stray) (Option.Rel Holds)
      (within body summary >>= fun s => pure (some (f s)))
      fun x u y => 9 ≤ ws.length ∧ y = x ∧ u = some (g ws) := by
  refine ((realizes_within_summary endOfFile_mem_dataFaults hbody).map (W := Option.Rel Holds)
    (k := fun ws => some (g ws)) fun s ws hs => .some ?_).congr fun x u y => ?_
  · rw [Holds, hfg, hs]
    rfl
  · constructor
    · rintro ⟨_, ⟨rfl, hlength, rfl⟩, rfl⟩
      exact ⟨hlength, rfl, rfl⟩
    · rintro ⟨hlength, rfl, rfl⟩
      exact ⟨ws, ⟨rfl, hlength, rfl⟩, rfl⟩

/-- The next unit behind another one, or nothing at the end of the file. -/
def NextUnit (stray : List UInt8) (previous : Option FramedUnit) (x : List UInt32)
    (next : Option FramedUnit) (y : List UInt32) : Prop :=
  next = none ∧ Reader.EndsAt stray x ∧ y = x ∨ ∃ u, next = some u ∧ u.Complete ∧
    (u.IsProgram → AllowsProgram previous) ∧ x = u.words ++ y

theorem realizes_dataUnit {previous : Option DataUnit} {v : Option FramedUnit}
    (hprevious : Option.Rel Holds previous v) :
    Realizes dataFaults (Reader.Shows o stray) (Option.Rel Holds) (dataUnit previous)
      (NextUnit stray v) := by
  intro x r hr
  rw [dataUnit, run_get_bind]
  by_cases hend : Reader.EndsAt stray x
  · rw [if_pos (hr.isFinished_iff.2 hend)]
    refine .ok .none hr (.inl ⟨rfl, hend, rfl⟩) ?_
    rintro b y (⟨rfl, -, rfl⟩ | hunit)
    · exact ⟨rfl, rfl⟩
    · obtain ⟨_, _, ⟨rfl, -⟩, -⟩ := exists_unitEnds_iff.2 hunit
      exact absurd hend (Reader.not_endsAt_recordWords _ _ _)
  rw [if_neg (mt hr.isFinished_iff.1 hend)]
  refine ((realizes_record endOfFile_mem_dataFaults).bind (G := UnitEnds v)
    (W := Option.Rel Holds) ?_ x r hr).congr fun u z => ?_
  · rintro ⟨tag, body⟩ ⟨_, ws⟩ ⟨rfl, hbody⟩
    dsimp only at hbody ⊢
    by_cases hfunction : tag = Tag.function
    · subst hfunction
      rw [if_pos rfl]
      refine (realizes_functionUnit hbody).congr fun x u y => ⟨?_, ?_⟩
      · rintro ⟨hkey, counts, hcounts, rfl, rfl⟩
        exact .function hkey hcounts
      · rintro (⟨hkey, hcounts⟩ | _ | _)
        exact ⟨hkey, _, hcounts, rfl, rfl⟩
    rw [if_neg hfunction]
    by_cases hobject : tag = Tag.objectSummary
    · subst hobject
      rw [if_pos rfl]
      refine (realizes_summaryUnit hbody .object .object fun _ => rfl).congr fun x u y => ⟨?_, ?_⟩
      · rintro ⟨hbody, rfl, rfl⟩
        exact .object hbody
      · rintro (_ | hbody | _)
        exact ⟨hbody, rfl, rfl⟩
    rw [if_neg hobject]
    by_cases hprogram : tag = Tag.programSummary ∧ allowsProgram previous = true
    · rw [if_pos hprogram]
      obtain ⟨rfl, hallowed⟩ := hprogram
      refine (realizes_summaryUnit hbody .program .program fun _ => rfl).congr fun x u y => ⟨?_, ?_⟩
      · rintro ⟨hbody, rfl, rfl⟩
        exact .program ((allowsProgram_iff hprevious).1 hallowed) hbody
      · rintro (_ | _ | ⟨_, hbody⟩)
        exact ⟨hbody, rfl, rfl⟩
    · rw [if_neg hprogram]
      refine (realizes_failAt (unexpectedTag_mem_dataFaults _ _) _).congr fun x u y => ?_
      refine ⟨False.elim, ?_⟩
      rintro (_ | _ | ⟨hallowed, _⟩)
      · exact hfunction rfl
      · exact hobject rfl
      · exact hprogram ⟨rfl, (allowsProgram_iff hprevious).2 hallowed⟩
  · refine exists_unitEnds_iff.trans ?_
    simp only [NextUnit, hend, false_and, and_false, false_or]

/-! ### Files -/

/-- The units up to the end of a file. -/
theorem iterates_nextUnit_iff {previous : Option FramedUnit} {x y : List UInt32}
    {units : List FramedUnit} : Iterates (NextUnit stray) previous x units y ↔
      (∀ u ∈ units, u.Complete) ∧ Ordered previous units ∧
        x = units.flatMap FramedUnit.words ++ y ∧ Reader.EndsAt stray y := by
  constructor
  · intro h
    induction h with
    | stop last =>
      obtain ⟨-, hend, rfl⟩ | ⟨_, ⟨⟩, -⟩ := last
      exact ⟨by rintro _ ⟨⟩, trivial, rfl, hend⟩
    | next first _ ih =>
      obtain ⟨⟨⟩, -⟩ | ⟨_, ⟨⟩, hcomplete, hprogram, rfl⟩ := first
      obtain ⟨hunits, hordered, rfl, hend⟩ := ih
      refine ⟨List.forall_mem_cons.2 ⟨hcomplete, hunits⟩, ⟨hprogram, hordered⟩, ?_, hend⟩
      rw [List.flatMap_cons, List.append_assoc]
  · rintro ⟨hunits, hordered, rfl, hend⟩
    induction units generalizing previous with
    | nil => exact .stop (.inl ⟨rfl, hend, rfl⟩)
    | cons u units ih =>
      obtain ⟨hu, hunits⟩ := List.forall_mem_cons.1 hunits
      refine .next (.inr ⟨u, rfl, hu, hordered.1, ?_⟩) (ih hunits hordered.2)
      rw [List.flatMap_cons, List.append_assoc]

theorem exists_object_iff {values : List DataUnit} {units : List FramedUnit}
    (h : List.Forall₂ Holds values units) :
    (∃ s, .object s ∈ values) ↔ ∃ body, .object body ∈ units := by
  induction h with
  | nil => simp
  | @cons value u values units hu _ ih =>
    simp only [List.mem_cons, exists_or, ih]
    refine or_congr_left ?_
    match u, hu with
    | .function (_ :: _ :: _) _, rfl => simp
    | .object body, hu =>
      obtain ⟨s, -, rfl⟩ := Option.map_eq_some_iff.1 hu
      simp
    | .program body, hu =>
      obtain ⟨s, -, rfl⟩ := Option.map_eq_some_iff.1 hu
      simp

theorem map_value?_eq {values : List DataUnit} {units : List FramedUnit}
    (h : List.Forall₂ Holds values units) : units.map FramedUnit.value? = values.map some := by
  induction h with
  | nil => rfl
  | cons hu _ ih => rw [List.map_cons, List.map_cons, ih, hu]

/-- The file that units hold. -/
def HoldsFile (version : Version) (stamp : UInt32) (file : DataFile) (units : List FramedUnit) :
    Prop :=
  ∃ values, List.Forall₂ Holds values units ∧ file = DataFile.ofUnits version stamp values

/-- What the rest of a data file is read as. -/
theorem recognizes_dataFile {x : List UInt32} {r : Reader} (hr : Reader.Shows o stray x r)
    (htype : r.fileType = .data) :
    Meets dataFaults (Reader.Shows o stray) (HoldsFile r.version r.stamp)
      (fun units y => Admissible units ∧ x = units.flatMap FramedUnit.words ++ y ∧
        Reader.EndsAt stray y) (dataFile r) := by
  have hunits := Realizes.repeatWhile (h := yields_dataUnit)
    (fun _ _ => @realizes_dataUnit o stray _ _) .none
  have hend (values : List DataUnit) (units : List FramedUnit)
      (h : List.Forall₂ Holds values units) :
      Realizes dataFaults (Reader.Shows o stray) (HoldsFile r.version r.stamp)
        (do
          let file := DataFile.ofUnits r.version r.stamp values
          if file.objects.isEmpty then
            failAt (← get).position .endOfFile
          return file)
        fun x us y => (∃ body, .object body ∈ units) ∧ us = units ∧ y = x := by
    have hobjects := exists_object_iff h
    rw [← DataFile.isEmpty_objects_ofUnits r.version r.stamp] at hobjects
    simp only [← hobjects]
    cases (DataFile.ofUnits r.version r.stamp values).objects.isEmpty with
    | false => exact (realizes_pure ⟨values, h, rfl⟩).congr fun x us y => (and_iff_right rfl).symm
    | true =>
      refine (realizes_get.bind (G := fun _ _ _ _ => False) fun _ _ _ =>
        realizes_failAt endOfFile_mem_dataFaults _).congr fun x us y => ?_
      simp
  rw [dataFile, run_get_bind, htype, if_neg (not_not_intro rfl)]
  refine (hunits.bind hend x r hr).congr fun units z => ?_
  simp only [iterates_nextUnit_iff, admissible_iff]
  constructor
  · rintro ⟨_, _, ⟨hunits, hordered, hx, hends⟩, hobject, rfl, rfl⟩
    exact ⟨⟨hunits, hordered, hobject⟩, hx, hends⟩
  · rintro ⟨⟨hunits, hordered, hobject⟩, hx, hends⟩
    exact ⟨units, z, ⟨hunits, hordered, hx, hends⟩, hobject, rfl, rfl⟩

/-- A data file is read exactly if what follows its header is made of units in the order of the
format, but for a word of zeros that may stand at its end. It is read as what these units hold. -/
theorem dataFile_eq_ok_iff {bytes : List UInt8} {r : Reader} (h : Reader.ofBytes bytes = .ok r)
    (htype : r.fileType = .data) :
    ((∃ file r', dataFile r = .ok file r') ↔ ∃ units, Admissible units ∧ ∃ marked,
      bytes.drop 12 = Writer.words r.order (units.flatMap FramedUnit.words) ++
        Writer.ending r.order marked) ∧
    (∀ units marked, Admissible units → bytes.drop 12 =
        Writer.words r.order (units.flatMap FramedUnit.words) ++ Writer.ending r.order marked →
      ∃ values r', units.map FramedUnit.value? = values.map some ∧
        dataFile r = .ok (DataFile.ofUnits r.version r.stamp values) r') ∧
    (∀ key counts data, value? (.function key counts) = some (.function data) →
      data.counts.length = counts.length / 2) ∧
    ∀ e r', dataFile r = .error e r' →
      e.error = .endOfFile ∨ ∃ tag reading, e.error = .unexpectedTag tag reading := by
  obtain ⟨x, stray, hunread, hshort⟩ := Writer.exists_words r.order r.unread
  have hrun := recognizes_dataFile ⟨rfl, hunread, hshort⟩ htype
  rw [← Reader.unread_ofBytes h, hunread]
  refine ⟨?_, fun units marked hunits hbytes => ?_, fun key counts data hvalue => ?_, hrun.fails⟩
  · have hlanguage := @Reader.exists_heads_endsAt_iff r.order stray x
      {ws | ∃ units, Admissible units ∧ ws = units.flatMap FramedUnit.words} hshort
    rw [hrun.exists_ok_iff]
    constructor
    · rintro ⟨units, y, hunits, rfl, hend⟩
      obtain ⟨_, ⟨units, hunits, rfl⟩, hbytes⟩ :=
        hlanguage.1 ⟨y, ⟨_, ⟨units, hunits, rfl⟩, rfl⟩, hend⟩
      exact ⟨units, hunits, hbytes⟩
    · rintro ⟨units, hunits, hbytes⟩
      obtain ⟨y, ⟨_, ⟨units, hunits, rfl⟩, rfl⟩, hend⟩ :=
        hlanguage.2 ⟨_, ⟨units, hunits, rfl⟩, hbytes⟩
      exact ⟨units, y, hunits, rfl, hend⟩
  · obtain ⟨y, ⟨_, rfl, rfl⟩, hend⟩ := (Reader.exists_heads_endsAt_iff
      (L := {units.flatMap FramedUnit.words}) hshort).2 ⟨_, rfl, marked, hbytes⟩
    obtain ⟨_, r', hfile, ⟨values, hvalues, rfl⟩, -⟩ := hrun.complete units y ⟨hunits, rfl, hend⟩
    exact ⟨values, r', map_value?_eq hvalues, hfile⟩
  · match key, hvalue with
    | ident :: checksum :: more, rfl => exact length_longs counts

/-- The counts of a function, with a spare word behind them, and two summaries. -/
def sampleFramedUnits : List FramedUnit :=
  [.function [7, 9] [3, 0, 1], .object [0, 1, 1, 3, 0, 3, 0, 3, 0],
    .program [0, 1, 1, 3, 0, 3, 0, 3, 0]]

theorem dataFile_eq_ok_iff_sample : ∃ r r', Reader.ofBytes (Writer.header .big .data ⟨0⟩ 5 ++
      (Writer.words .big (sampleFramedUnits.flatMap FramedUnit.words) ++ [])) = .ok r ∧
    dataFile r = .ok ⟨⟨0⟩, 5, [⟨⟨7⟩, 9, [3]⟩], [⟨0, 1, 1, 3, 3, 3⟩], [⟨0, 1, 1, 3, 3, 3⟩]⟩ r' := by
  have hread := Reader.ofBytes_header .big .data ⟨0⟩ 5
    (Writer.words .big (sampleFramedUnits.flatMap FramedUnit.words) ++ [])
  have hcomplete : ∀ u ∈ sampleFramedUnits, u.Complete := by
    simp [sampleFramedUnits, Complete, UInt32.size]
  have hunits : Admissible sampleFramedUnits :=
    admissible_iff.2 ⟨hcomplete, ⟨False.elim, False.elim, fun _ => trivial, trivial⟩,
      _, .tail _ (.head _)⟩
  obtain ⟨values, r', hvalues, hfile⟩ :=
    (dataFile_eq_ok_iff hread rfl).2.1 sampleFramedUnits false hunits rfl
  have hvalues : values = [.function ⟨⟨7⟩, 9, [3]⟩, .object ⟨0, 1, 1, 3, 3, 3⟩,
      .program ⟨0, 1, 1, 3, 3, 3⟩] :=
    List.map_injective_iff.2 (Option.some_injective _) (hvalues.symm.trans (by cbv))
  rw [hvalues] at hfile
  exact ⟨_, r', hread, hfile⟩

end Decoder

end CoverageFlow
