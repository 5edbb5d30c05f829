import Mathlib

/-!
# Flows on forests

An undirected multigraph is given by its links, each of which joins two vertices. A link may join
a vertex to itself, and several links may join the same two vertices. A *trail* follows links from
vertex to vertex and takes no link twice. The multigraph is a forest if no trail returns to where it
began, except for the trail without links. So a forest has no link from a vertex to itself and no
two links between the same two vertices.

In a forest, any links of which there are some have a *leaf*: a vertex on exactly one of them. For a
trail that could be continued at every vertex would get longer and longer without meeting itself.

Nothing can flow through a forest. If values on its links enter every vertex as much as they leave
it, the links with a nonzero value would have a leaf, where a single one of them would enter or
leave.

## Main definitions

* `Links`: the links of an undirected multigraph.
* `Links.IsRoute`: links that follow one another, and `Links.Acyclic`: forests.

## Main results

* `Links.Acyclic.exists_leaf`: forests have leaves.
* `Links.Acyclic.eq_zero_of_balanced`: nothing flows through a forest.
-/

namespace CoverageFlow

/-- The two vertices that each link of an undirected multigraph joins. -/
abbrev Links (V ι : Type) : Type := ι → Sym2 V

namespace Links

variable {V ι : Type} {G : Links V ι} {u v w : V} {e e' : ι} {es es' : List ι}

/-- The links lead from the first vertex to the second one, in their order. -/
def IsRoute (G : Links V ι) (u : V) : List ι → V → Prop
  | [], v => u = v
  | e :: es, v => ∃ w, G e = s(u, w) ∧ IsRoute G w es v

/-- No links lead from a vertex back to it without one of them being taken twice. -/
def Acyclic (G : Links V ι) : Prop :=
  ∀ v es, G.IsRoute v es v → es.Nodup → es = []

instance decidableIsRoute [Fintype V] [DecidableEq V] (G : Links V ι) :
    (u : V) → (es : List ι) → (v : V) → Decidable (G.IsRoute u es v)
  | u, [], v => inferInstanceAs (Decidable (u = v))
  | u, e :: es, v =>
    have (w : V) := decidableIsRoute G w es v
    inferInstanceAs (Decidable (∃ w, G e = s(u, w) ∧ G.IsRoute w es v))

/-- A trail has at most as many links as there are. -/
theorem acyclic_iff [Fintype ι] : G.Acyclic ↔ ∀ k : Fin (Fintype.card ι + 1), ∀ es : Fin k → ι,
    (List.ofFn es).Nodup → ∀ v, G.IsRoute v (List.ofFn es) v → k.val = 0 := by
  constructor
  · intro h k es hnodup v hroute
    simpa using congrArg List.length (h v _ hroute hnodup)
  · intro h v es hroute hnodup
    have hlength := Nat.lt_succ_of_le hnodup.length_le_card
    have hempty := h ⟨es.length, hlength⟩ es.get (by simpa using hnodup) v (by simpa using hroute)
    exact List.length_eq_zero_iff.1 hempty

instance [Fintype V] [DecidableEq V] [Fintype ι] [DecidableEq ι] (G : Links V ι) :
    Decidable G.Acyclic :=
  decidable_of_iff' _ acyclic_iff

/-! ### Routes -/

theorem isRoute_append : G.IsRoute u (es ++ es') v ↔ ∃ w, G.IsRoute u es w ∧ G.IsRoute w es' v := by
  induction es generalizing u with
  | nil => exact ⟨fun h => ⟨u, rfl, h⟩, fun ⟨_, hu, h⟩ => hu ▸ h⟩
  | cons e es ih =>
    constructor
    · rintro ⟨x, hx, hrest⟩
      obtain ⟨w, hw, hv⟩ := ih.1 hrest
      exact ⟨w, ⟨x, hx, hw⟩, hv⟩
    · rintro ⟨w, ⟨x, hx, hw⟩, hv⟩
      exact ⟨x, hx, ih.2 ⟨w, hw, hv⟩⟩

theorem isRoute_singleton : G.IsRoute u [e] v ↔ G e = s(u, v) :=
  ⟨fun ⟨_, hw, hv⟩ => hv ▸ hw, fun h => ⟨v, h, rfl⟩⟩

/-- A link of a forest joins two different vertices. -/
theorem Acyclic.ne (h : G.Acyclic) (he : G e = s(u, v)) : u ≠ v := by
  rintro rfl
  exact List.cons_ne_nil e [] (h u [e] (isRoute_singleton.2 he) (List.nodup_singleton e))

/-- A trail in a forest does not come back to its first vertex. -/
theorem Acyclic.notMem_of_mem (h : G.Acyclic) (hroute : G.IsRoute u (e :: es) v)
    (hnodup : (e :: es).Nodup) (he' : e' ∈ es) : u ∉ G e' := by
  intro hu
  obtain ⟨es₁, es₂, rfl⟩ := List.append_of_mem he'
  obtain ⟨w, hfirst, w', hlink, -⟩ := isRoute_append.1 (List.cons_append ▸ hroute)
  have hnodup₁ : (e :: es₁ ++ [e']).Nodup := by
    refine hnodup.sublist ?_
    simp
  rw [hlink, Sym2.mem_iff] at hu
  rcases hu with rfl | rfl
  · exact List.cons_ne_nil _ _ (h u _ hfirst (List.nodup_append.1 hnodup₁).1)
  · have hback := isRoute_append.2 ⟨w, hfirst, isRoute_singleton.2 hlink⟩
    exact List.cons_ne_nil _ _ (h u _ hback hnodup₁)

/-! ### Leaves -/

/-- Some links of a forest have a vertex that lies on exactly one of them. -/
theorem Acyclic.exists_leaf (h : G.Acyclic) {S : Finset ι} (hS : S.Nonempty) :
    ∃ e ∈ S, ∃ v ∈ G e, ∀ e' ∈ S, v ∈ G e' → e' = e := by
  by_contra! hleaf
  -- Without a leaf, every trail could be continued backwards, so trails could have any length.
  have hlong (k : ℕ) : ∃ u e es v, G.IsRoute u (e :: es) v ∧ (e :: es).Nodup ∧
      (∀ e' ∈ e :: es, e' ∈ S) ∧ es.length = k := by
    induction k with
    | zero =>
      obtain ⟨e, he⟩ := hS
      obtain ⟨⟨u, v⟩, huv⟩ := Sym2.mk_surjective (G e)
      exact ⟨u, e, [], v, isRoute_singleton.2 huv.symm, List.nodup_singleton e, by simpa using he,
        rfl⟩
    | succ k ih =>
      obtain ⟨u, e, es, v, hroute, hnodup, hmem, hlen⟩ := ih
      have hu : u ∈ G e := by
        obtain ⟨w, hw, -⟩ := hroute
        rw [hw]
        exact Sym2.mem_mk_left u w
      obtain ⟨e', he', hu', hne⟩ := hleaf e (hmem e List.mem_cons_self) u hu
      obtain ⟨u', hu'⟩ := hu'
      refine ⟨u', e', e :: es, v, ⟨u, hu'.trans Sym2.eq_swap, hroute⟩,
        List.nodup_cons.2 ⟨fun hmem' => ?_, hnodup⟩, ?_, ?_⟩
      · have := (List.mem_cons.1 hmem').resolve_left hne
        exact h.notMem_of_mem hroute hnodup this (hu' ▸ Sym2.mem_mk_left u u')
      · exact List.forall_mem_cons.2 ⟨he', hmem⟩
      · rw [List.length_cons, hlen]
  obtain ⟨u, e, es, v, -, hnodup, hmem, hlen⟩ := hlong S.card
  have hle := (hnodup.subperm fun e' he' => Finset.mem_toList.2 (hmem e' he')).length_le
  rw [Finset.length_toList, List.length_cons, hlen] at hle
  exact Nat.not_succ_le_self _ hle

/-! ### Flows -/

/-- If values on the links of a forest enter every vertex as much as they leave it, they are all
zero. -/
theorem Acyclic.eq_zero_of_balanced [Fintype ι] [DecidableEq V] {tail head : ι → V}
    (h : Acyclic fun e => s(tail e, head e)) {x : ι → ℤ}
    (hx : ∀ v, ∑ e with tail e = v, x e = ∑ e with head e = v, x e) : x = 0 := by
  by_contra hne
  have hsupport : (Finset.univ.filter fun e => x e ≠ 0).Nonempty := by
    obtain ⟨e, he⟩ := Function.ne_iff.1 hne
    exact ⟨e, Finset.mem_filter.2 ⟨Finset.mem_univ e, he⟩⟩
  obtain ⟨e, he, v, hv, hleaf⟩ := h.exists_leaf hsupport
  have hzero (e' : ι) (hv : v ∈ s(tail e', head e')) (hne : e' ≠ e) : x e' = 0 := by
    by_contra hnonzero
    exact hne (hleaf e' (Finset.mem_filter.2 ⟨Finset.mem_univ e', hnonzero⟩) hv)
  -- So only `e` counts among the links that begin at `v`, and among those that end there.
  have honly (vertex : ι → V) (hvertex : ∀ e', vertex e' ∈ s(tail e', head e')) :
      ∑ e' with vertex e' = v, x e' = if vertex e = v then x e else 0 := by
    rw [Finset.sum_filter]
    refine Finset.sum_eq_single e (fun e' _ hne' => ite_eq_right_iff.2 fun he' => ?_)
      fun hnot => absurd (Finset.mem_univ e) hnot
    exact hzero e' (he' ▸ hvertex e') hne'
  have hends : tail e ≠ head e := h.ne rfl
  have hbalance := hx v
  rw [honly tail fun e' => Sym2.mem_mk_left _ _, honly head fun e' => Sym2.mem_mk_right _ _]
    at hbalance
  refine (Finset.mem_filter.1 he).2 ?_
  rcases Sym2.mem_iff.1 hv with rfl | rfl
  · rwa [if_pos rfl, if_neg hends.symm] at hbalance
  · rw [if_pos rfl, if_neg hends] at hbalance
    exact hbalance.symm

end Links

end CoverageFlow
