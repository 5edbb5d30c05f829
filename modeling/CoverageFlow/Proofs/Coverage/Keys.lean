import CoverageFlow.Proofs.Graph.Names

/-!
# Values under keys

Reports collect values under keys: each element of a list changes the value of its key, which starts
out as a default. The result depends on the elements of each key only, taken in the order of the
list, so it can be had by grouping the elements first.

Reports are collected under the symbols of files and get the names of the files at the end. In a map
by names, two symbols with the same name would leave the values of one of them. If the keys of all
elements keep apart, nothing is lost: it is the same to replace the keys of the elements before.

## Main definitions

* `adjust`: changes the value of a key.
* `groupBy`: the elements of a list by their keys.

## Main results

* `groupBy_comp`: keys can be replaced before or after grouping, if no two become equal.
* `foldl_adjust_eq`: values are collected from the groups.
* `foldl_adjust_comp`: keys can be replaced before or after values are collected, if no two become
  equal.
-/

namespace CoverageFlow

variable {α β γ κ κ' : Type} [Ord κ] [Std.TransOrd κ] [Ord κ'] [Std.TransOrd κ']

/-! ### The value of a key -/

section Adjust

/-- Changes the value of a key, which is `d` if there is none. -/
def adjust (m : Std.ExtTreeMap κ β) (k : κ) (d : β) (f : β → β) : Std.ExtTreeMap κ β :=
  m.insert k (f (m.getD k d))

variable [Std.LawfulEqOrd κ] [DecidableEq κ] {m : Std.ExtTreeMap κ β} {k k' : κ} {d : β}
  {f g : β → β}

theorem getElem?_adjust :
    (adjust m k d f)[k']? = if k = k' then some (f (m.getD k d)) else m[k']? := by
  rw [adjust, Std.ExtTreeMap.getElem?_insert]
  exact if_congr Std.LawfulEqOrd.compare_eq_iff_eq rfl rfl

theorem getD_adjust :
    (adjust m k d f).getD k' d = if k = k' then f (m.getD k d) else m.getD k' d := by
  rw [adjust, Std.ExtTreeMap.getD_insert]
  exact if_congr Std.LawfulEqOrd.compare_eq_iff_eq rfl rfl

/-- Changes of values commute, unless they change the same value and do not commute there. -/
theorem adjust_comm (h : k = k' → ∀ b, g (f b) = f (g b)) :
    adjust (adjust m k d f) k' d g = adjust (adjust m k' d g) k d f := by
  refine Std.ExtTreeMap.ext_getElem? fun {a} => ?_
  simp only [getElem?_adjust, getD_adjust]
  by_cases hk : k = k'
  · subst hk
    rw [if_pos rfl, if_pos rfl, h rfl]
    split_ifs <;> rfl
  · rw [if_neg hk, if_neg (Ne.symm hk)]
    by_cases ha : k = a
    · rw [if_neg (ha ▸ Ne.symm hk), if_pos ha, if_pos ha]
    · rw [if_neg ha, if_neg ha]

/-- All values can be changed before one of them is, which then is changed accordingly. -/
theorem map_adjust {φ : β → γ} {g : γ → γ} (h : ∀ b, φ (f b) = g (φ b)) :
    (adjust m k d f).map (fun _ => φ) = adjust (m.map fun _ => φ) k (φ d) g := by
  have hgetD : (m.map fun _ => φ).getD k (φ d) = φ (m.getD k d) := by
    rw [Std.ExtTreeMap.getD_map, Std.ExtTreeMap.getD_eq_getD_getElem?, Option.getD_map]
  refine Std.ExtTreeMap.ext_getElem? fun {a} => ?_
  rw [Std.ExtTreeMap.getElem?_map, getElem?_adjust, getElem?_adjust, hgetD, ← h,
    Std.ExtTreeMap.getElem?_map]
  exact apply_ite ..

/-- The members of the set of a key, after one was added to that of another key or the same. -/
theorem mem_getD_insert [Ord α] [Std.TransOrd α] [Std.LawfulEqOrd α]
    {m : Std.ExtTreeMap κ (Std.ExtTreeSet α)} {x x' : α} :
    x' ∈ (m.insert k ((m.getD k ∅).insert x)).getD k' ∅ ↔
      k = k' ∧ x = x' ∨ x' ∈ m.getD k' ∅ := by
  change x' ∈ (adjust m k ∅ fun set => set.insert x).getD k' ∅ ↔ _
  rw [getD_adjust]
  by_cases h : k = k'
  · subst h
    rw [if_pos rfl, Std.ExtTreeSet.mem_insert, Std.LawfulEqOrd.compare_eq_iff_eq]
    simp
  · rw [if_neg h]
    simp [h]

end Adjust

/-! ### Groups by a key -/

section Groups

variable {key : α → κ} {l as : List α} {k : κ}

/-- Elements by their keys, those with the same key in the order of the list. -/
def groupBy (key : α → κ) (l : List α) : Std.ExtTreeMap κ (List α) :=
  l.foldl (fun groups a => adjust groups (key a) [] (· ++ [a])) ∅

theorem groupBy_append (key : α → κ) (l : List α) (a : α) :
    groupBy key (l ++ [a]) = adjust (groupBy key l) (key a) [] (· ++ [a]) :=
  List.foldl_append

variable [Std.LawfulEqOrd κ] [DecidableEq κ]

/-- There is no empty group. -/
theorem ne_nil_of_getElem?_groupBy (h : (groupBy key l)[k]? = some as) : as ≠ [] := by
  induction l using List.reverseRecOn with
  | nil =>
    rw [groupBy, List.foldl_nil, Std.ExtTreeMap.getElem?_empty] at h
    cases h
  | append_singleton l a ih =>
    rw [groupBy_append, getElem?_adjust] at h
    split at h
    · cases h
      exact List.append_ne_nil_of_right_ne_nil _ (List.cons_ne_nil _ _)
    · exact ih h

theorem getD_groupBy (key : α → κ) (l : List α) (k : κ) :
    (groupBy key l).getD k [] = l.filter fun a => key a = k := by
  induction l using List.reverseRecOn with
  | nil => rfl
  | append_singleton l a ih =>
    rw [groupBy_append, getD_adjust, List.filter_append]
    by_cases h : key a = k
    · subst h
      simp [ih]
    · simp [h, ih]

/-- The group of a key holds all elements that have the key. -/
theorem getElem?_groupBy_eq_some_iff :
    (groupBy key l)[k]? = some as ↔ as ≠ [] ∧ (l.filter fun a => key a = k) = as := by
  have hgroup := getD_groupBy key l k
  rw [Std.ExtTreeMap.getD_eq_getD_getElem?] at hgroup
  constructor
  · intro h
    rw [h] at hgroup
    exact ⟨ne_nil_of_getElem?_groupBy h, hgroup.symm⟩
  · rintro ⟨hne, rfl⟩
    cases h : (groupBy key l)[k]? with
    | none =>
      rw [h] at hgroup
      exact absurd hgroup.symm hne
    | some as =>
      rw [h] at hgroup
      exact congrArg some hgroup

theorem mem_toList_groupBy :
    (k, as) ∈ (groupBy key l).toList ↔ as ≠ [] ∧ (l.filter fun a => key a = k) = as :=
  Std.ExtTreeMap.mem_toList_iff_getElem?_eq_some.trans getElem?_groupBy_eq_some_iff

/-- Every key of a group is the key of an element. -/
theorem exists_of_mem_toList_groupBy (h : (k, as) ∈ (groupBy key l).toList) :
    ∃ a ∈ l, key a = k := by
  obtain ⟨hne, rfl⟩ := mem_toList_groupBy.1 h
  obtain ⟨a, ha⟩ := List.exists_mem_of_ne_nil _ hne
  exact ⟨a, (List.mem_filter.1 ha).1, of_decide_eq_true (List.mem_filter.1 ha).2⟩

variable [Std.LawfulEqOrd κ'] [DecidableEq κ']

/-- Keys can be replaced before or after grouping, if no two become equal. -/
theorem groupBy_comp (key : α → κ) {g : κ → κ'}
    (hg : ∀ a ∈ l, ∀ b ∈ l, g (key a) = g (key b) → key a = key b) :
    groupBy (fun a => g (key a)) l =
      .ofList ((groupBy key l).toList.map fun entry => (g entry.1, entry.2)) compare := by
  have hfilter {a : α} (ha : a ∈ l) :
      (l.filter fun b => g (key b) = g (key a)) = l.filter fun b => key b = key a :=
    List.filter_congr fun b hb => decide_eq_decide.2 ⟨hg b hb a ha, congrArg g⟩
  have hnodup : (((groupBy key l).toList.map fun entry => (g entry.1, entry.2)).map
      Prod.fst).Nodup := by
    rw [List.map_map, List.Nodup, List.pairwise_map]
    refine (List.pairwise_map.1 (nodup_fst_toList _)).imp_of_mem fun hx hy hne heq => hne ?_
    obtain ⟨a, ha, hkey⟩ := exists_of_mem_toList_groupBy hx
    obtain ⟨b, hb, hkey'⟩ := exists_of_mem_toList_groupBy hy
    rw [← hkey, ← hkey']
    exact hg a ha b hb (by rw [hkey, hkey']; exact heq)
  -- The group of a new key is that of the only old key which is replaced by it.
  refine Std.ExtTreeMap.ext_getElem? fun {k'} => Option.ext fun as => ?_
  rw [getElem?_groupBy_eq_some_iff, ← Std.ExtTreeMap.mem_toList_iff_getElem?_eq_some,
    (toList_ofList_perm hnodup).mem_iff, List.mem_map]
  constructor
  · rintro ⟨hne, rfl⟩
    obtain ⟨a, ha⟩ := List.exists_mem_of_ne_nil _ hne
    obtain ⟨hal, hkey⟩ := List.mem_filter.1 ha
    obtain rfl := of_decide_eq_true hkey
    rw [hfilter hal] at hne ⊢
    exact ⟨(key a, _), mem_toList_groupBy.2 ⟨hne, rfl⟩, rfl⟩
  · rintro ⟨⟨k, as⟩, hentry, heq⟩
    cases heq
    obtain ⟨hne, hgroup⟩ := mem_toList_groupBy.1 hentry
    obtain ⟨a, ha, rfl⟩ := exists_of_mem_toList_groupBy hentry
    exact ⟨hne, (hfilter ha).trans hgroup⟩

end Groups

/-! ### Values collected from a list -/

section Collect

variable [Std.LawfulEqOrd κ] [DecidableEq κ] (key : α → κ) (d : β) (step : α → β → β)

/-- Values are collected from the groups. -/
theorem foldl_adjust_eq (l : List α) : l.foldl (fun m a => adjust m (key a) d (step a)) ∅ =
    (groupBy key l).map fun _ as => as.foldl (fun b a => step a b) d := by
  induction l using List.reverseRecOn with
  | nil => exact Std.ExtTreeMap.ext_getElem? fun {k} => by simp [groupBy]
  | append_singleton l a ih =>
    rw [List.foldl_append, ih, groupBy_append, map_adjust fun as => List.foldl_append]
    rfl

variable [Std.LawfulEqOrd κ'] [DecidableEq κ'] {l : List α}

/-- Keys can be replaced before or after values are collected, if no two become equal. -/
theorem foldl_adjust_comp {g : κ → κ'}
    (hg : ∀ a ∈ l, ∀ b ∈ l, g (key a) = g (key b) → key a = key b) :
    l.foldl (fun m a => adjust m (g (key a)) d (step a)) ∅ =
      .ofList ((l.foldl (fun m a => adjust m (key a) d (step a)) ∅).toList.map fun entry =>
        (g entry.1, entry.2)) compare := by
  rw [foldl_adjust_eq key, foldl_adjust_eq fun a => g (key a), groupBy_comp key hg, ← ofList_map,
    Std.ExtTreeMap.toList_map, List.map_map, List.map_map]
  rfl

end Collect

end CoverageFlow
