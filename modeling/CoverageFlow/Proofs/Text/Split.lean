import CoverageFlow.Text.Split
import Mathlib

/-!
# Parts of a text

Splitting a text and joining parts are the operations of the same kind on lists of characters, so
their laws are those of lists. Parts never contain the separator, and parts that do not contain it
are found again after they were joined.

Cutting off the end of joined parts cuts off the end of one part, and the parts after it.

## Main results

* `split_join`: joined parts are found again.
* `split_append`: a text is split on both sides of a separator independently.
* `splitLast?_eq_some_iff`: what stands before and after the last separator.
* `splitChars_take`: the parts of the beginning of a text.
-/

namespace CoverageFlow.Text

variable {separator : Char} {text : String} {part : String} {parts : List String}

theorem splitChars_eq_splitOn (separator : Char) (cs : List Char) :
    splitChars separator cs = cs.splitOn separator := by
  induction cs with
  | nil => rfl
  | cons c cs ih =>
    have hfirst : ∀ l : List (List Char), l ≠ [] → consFirst c l = l.modifyHead (List.cons c) := by
      rintro (- | ⟨part, parts⟩) hne
      · exact absurd rfl hne
      · rfl
    rw [List.splitOn, List.splitOnP_cons_eq_if_modifyHead, splitChars, ih, List.splitOn]
    by_cases hc : c = separator
    · rw [if_pos hc, if_pos (by simpa using hc)]
    · rw [if_neg hc, if_neg (by simpa using hc), hfirst _ (List.splitOnP_ne_nil _ _)]

theorem joinChars_eq_intercalate (separator : Char) :
    (parts : List (List Char)) → joinChars separator parts = [separator].intercalate parts
  | [] => rfl
  | [part] => by rw [joinChars, List.intercalate_singleton]
  | part :: next :: parts => by
    rw [joinChars, joinChars_eq_intercalate separator (next :: parts),
      List.intercalate_cons_cons, List.append_assoc, List.singleton_append]
    simp

/-- What stands before the first separator, and what after it. -/
theorem append_cons_inj {α : Type} [BEq α] [LawfulBEq α] {a : α} {xs ys zs ws : List α}
    (hxs : a ∉ xs) (hys : a ∉ ys) (h : xs ++ a :: zs = ys ++ a :: ws) : xs = ys ∧ zs = ws := by
  have hsplit := congrArg (List.splitOn a) h
  rw [List.splitOn_append_cons_self, List.splitOn_append_cons_self,
    List.splitOn_eq_singleton hxs, List.splitOn_eq_singleton hys] at hsplit
  obtain rfl := (List.cons.inj hsplit).1
  exact ⟨rfl, (List.cons.inj (List.append_cancel_left h)).2⟩

/-! ### Texts -/

theorem toList_join (separator : Char) (parts : List String) :
    (join separator parts).toList = [separator].intercalate (parts.map String.toList) := by
  rw [join, String.toList_ofList, joinChars_eq_intercalate]

theorem split_ne_nil (separator : Char) (text : String) : split separator text ≠ [] := by
  rw [split, Ne, List.map_eq_nil_iff]
  exact splitChars_ne_nil _ _

/-- Joined parts are found again. -/
theorem split_join (hne : parts ≠ []) (h : ∀ part ∈ parts, separator ∉ part.toList) :
    split separator (join separator parts) = parts := by
  rw [split, splitChars_eq_splitOn, toList_join,
    List.splitOn_intercalate separator (by simpa using h) (by simpa using hne), List.map_map]
  simp [Function.comp_def]

theorem split_of_notMem (h : separator ∉ text.toList) : split separator text = [text] := by
  rw [split, splitChars_eq_splitOn, List.splitOn_eq_singleton h]
  simp

/-- A text is split on both sides of a separator independently. -/
theorem split_append (separator : Char) (before after : String) :
    split separator (before ++ String.singleton separator ++ after) =
      split separator before ++ split separator after := by
  simp only [split, splitChars_eq_splitOn, ← List.map_append]
  rw [← List.splitOn_append_cons_self]
  simp

theorem notMem_of_mem_splitChars {cs part : List Char} (h : part ∈ splitChars separator cs) :
    separator ∉ part := by
  induction cs generalizing part with
  | nil =>
    obtain rfl := List.mem_singleton.1 h
    exact List.not_mem_nil
  | cons c cs ih =>
    rw [splitChars] at h
    split at h
    · rcases List.mem_cons.1 h with rfl | h
      · exact List.not_mem_nil
      · exact ih h
    · next hc =>
      obtain ⟨first, rest, hsplit⟩ := List.exists_cons_of_ne_nil (splitChars_ne_nil separator cs)
      rw [hsplit, consFirst] at h
      rw [hsplit] at ih
      rcases List.mem_cons.1 h with rfl | h
      · rw [List.mem_cons, not_or]
        exact ⟨Ne.symm hc, ih List.mem_cons_self⟩
      · exact ih (List.mem_cons_of_mem _ h)

/-- Parts do not contain the separator. -/
theorem notMem_of_mem_split (h : part ∈ split separator text) : separator ∉ part.toList := by
  obtain ⟨cs, hcs, rfl⟩ := List.mem_map.1 h
  rw [String.toList_ofList]
  exact notMem_of_mem_splitChars hcs

theorem intercalate_cons (separator : Char) (part : List Char) (parts : List (List Char)) :
    [separator].intercalate (part :: parts) = part ++ parts.flatMap (separator :: ·) := by
  induction parts generalizing part with
  | nil => simp
  | cons next parts ih => rw [List.intercalate_cons_cons, ih]; simp

/-- Joined parts consist of the first one, and of separators with the others. -/
theorem toList_join_cons (separator : Char) (part : String) (parts : List String) :
    (join separator (part :: parts)).toList =
      part.toList ++ parts.flatMap (separator :: ·.toList) := by
  rw [toList_join, List.map_cons, intercalate_cons, List.flatMap_map]

theorem mem_join {c : Char} (h : c ∈ (join separator parts).toList) :
    c = separator ∨ ∃ part ∈ parts, c ∈ part.toList := by
  rcases parts with - | ⟨first, parts⟩
  · cases h
  · simp only [toList_join_cons, List.mem_append, List.mem_flatMap, List.mem_cons] at h
    rcases h with h | ⟨part, hpart, rfl | h⟩
    · exact .inr ⟨first, List.mem_cons_self, h⟩
    · exact .inl rfl
    · exact .inr ⟨part, List.mem_cons_of_mem _ hpart, h⟩

theorem mem_join_of_mem {c : Char} (hpart : part ∈ parts) (hc : c ∈ part.toList) :
    c ∈ (join separator parts).toList := by
  rcases parts with - | ⟨first, parts⟩
  · cases hpart
  · simp only [toList_join_cons, List.mem_append, List.mem_flatMap, List.mem_cons]
    rcases List.mem_cons.1 hpart with rfl | hpart
    · exact .inl hc
    · exact .inr ⟨part, hpart, .inr hc⟩

/-- The characters of a part are those of the text. -/
theorem mem_of_mem_split {c : Char} (hpart : part ∈ split separator text)
    (hc : c ∈ part.toList) : c ∈ text.toList :=
  join_split separator text ▸ mem_join_of_mem hpart hc

/-- Without a separator there is at most one part. -/
theorem length_le_one_of_join (h : separator ∉ (join separator parts).toList) :
    parts.length ≤ 1 := by
  rcases parts with - | ⟨first, - | ⟨next, parts⟩⟩
  · exact Nat.zero_le 1
  · exact Nat.le_refl 1
  · rw [toList_join_cons] at h
    exact absurd (by simp) h

/-! ### The last separator -/

theorem splitLast?_eq_some_iff {before after : String} :
    splitLast? separator text = some (before, after) ↔
      text = before ++ String.singleton separator ++ after ∧ separator ∉ after.toList := by
  constructor
  · intro h
    rw [splitLast?] at h
    split at h
    · cases h
    · next c cs hdrop =>
      cases h
      have hc : c = separator := by
        have hhead := List.head_dropWhile_not (p := fun c => decide (c ≠ separator))
          (l := text.toList.reverse) (by rw [hdrop]; exact List.cons_ne_nil c cs)
        simp only [hdrop, List.head_cons] at hhead
        simpa using hhead
      have htext := List.takeWhile_append_dropWhile (p := fun c => decide (c ≠ separator))
        (l := text.toList.reverse)
      rw [hdrop, hc] at htext
      refine ⟨String.toList_inj.1 ?_, fun hmem => ?_⟩
      · have hreverse := congrArg List.reverse htext
        rw [List.reverse_append, List.reverse_reverse] at hreverse
        simpa using hreverse.symm
      · rw [String.toList_ofList, List.mem_reverse] at hmem
        simpa using List.mem_takeWhile_imp hmem
  · rintro ⟨rfl, hafter⟩
    have hreverse : (before ++ String.singleton separator ++ after).toList.reverse =
        after.toList.reverse ++ separator :: before.toList.reverse := by simp
    have hall : ∀ c ∈ after.toList.reverse, decide (c ≠ separator) = true := by
      intro c hc
      rw [List.mem_reverse] at hc
      exact decide_eq_true fun he => hafter (he ▸ hc)
    rw [splitLast?, hreverse, List.takeWhile_append_of_pos hall, List.dropWhile_append_of_pos hall]
    simp

/-! ### The beginning of a text -/

/-- Where parts that follow another one are cut off, the last one that stays may be cut. -/
theorem exists_take_flatMap (separator : Char) (parts : List (List Char)) (k : ℕ) :
    ∃ kept : List (List Char), (parts.flatMap (separator :: ·)).take k =
      kept.flatMap (separator :: ·) ∧ ∀ part ∈ kept, ∃ whole ∈ parts, part <+: whole := by
  induction parts generalizing k with
  | nil => exact ⟨[], by simp, fun part h => absurd h List.not_mem_nil⟩
  | cons part parts ih =>
    rcases k with - | k
    · exact ⟨[], by simp, fun part h => absurd h List.not_mem_nil⟩
    · obtain ⟨kept, hkept, hprefix⟩ := ih (k - part.length)
      refine ⟨part.take k :: kept, ?_, ?_⟩
      · rw [List.flatMap_cons, List.cons_append, List.take_succ_cons, List.take_append, hkept]
        simp
      · rintro part' hmem
        rcases List.mem_cons.1 hmem with rfl | hmem
        · exact ⟨part, List.mem_cons_self, List.take_prefix k part⟩
        · obtain ⟨whole, hwhole, hpart⟩ := hprefix part' hmem
          exact ⟨whole, List.mem_cons_of_mem _ hwhole, hpart⟩

theorem intercalate_append_cons (separator : Char) (before after : List (List Char))
    (part : List Char) : [separator].intercalate (before ++ part :: after) =
      before.flatMap (· ++ [separator]) ++ (part ++ after.flatMap (separator :: ·)) := by
  induction before with
  | nil => rw [List.nil_append, intercalate_cons, List.flatMap_nil, List.nil_append]
  | cons first before ih =>
    have hne : before ++ part :: after ≠ [] := by simp
    obtain ⟨next, parts, hparts⟩ := List.exists_cons_of_ne_nil hne
    rw [hparts] at ih
    rw [List.cons_append, hparts, List.intercalate_cons_cons, ih, List.flatMap_cons]
    simp only [List.append_assoc]

/-- What is cut off the end of a text, if it is no longer than a part and what comes after it,
spares the parts before. -/
theorem splitChars_take {text : List Char} {before after : List (List Char)} {part : List Char}
    (h : splitChars separator text = before ++ part :: after) {k : ℕ} (hk : k ≤ part.length) :
    ∃ kept, splitChars separator (text.take (text.length - k)) =
      before ++ part.take (part.length + (after.flatMap (separator :: ·)).length - k) :: kept ∧
        ∀ p ∈ kept, ∃ whole ∈ after, p <+: whole := by
  set tail := after.flatMap (separator :: ·) with htail
  have htext : text = before.flatMap (· ++ [separator]) ++ (part ++ tail) := by
    rw [htail, ← intercalate_append_cons, ← h, ← joinChars_eq_intercalate, joinChars_splitChars]
  obtain ⟨kept, hkept, hprefix⟩ := exists_take_flatMap separator after
    (part.length + tail.length - k - part.length)
  refine ⟨kept, ?_, hprefix⟩
  have hfree : ∀ p ∈ before ++ part :: after, separator ∉ p := fun p hp =>
    notMem_of_mem_splitChars (h ▸ hp)
  have htake : text.take (text.length - k) = [separator].intercalate
      (before ++ part.take (part.length + tail.length - k) :: kept) := by
    have hlength : text.length - k = (before.flatMap (· ++ [separator])).length +
        (part.length + tail.length - k) := by
      rw [htext, List.length_append, List.length_append]
      omega
    rw [hlength, htext, List.take_length_add_append, List.take_append, htail, hkept,
      intercalate_append_cons]
  rw [htake, splitChars_eq_splitOn, List.splitOn_intercalate separator ?_ (by simp)]
  intro p hp
  rcases List.mem_append.1 hp with hp | hp
  · exact hfree p (List.mem_append_left _ hp)
  · rcases List.mem_cons.1 hp with rfl | hp
    · exact fun hmem => hfree part (by simp) (List.mem_of_mem_take hmem)
    · obtain ⟨whole, hwhole, hpart⟩ := hprefix p hp
      exact fun hmem => hfree whole (by simp [hwhole]) (hpart.subset hmem)

end CoverageFlow.Text
