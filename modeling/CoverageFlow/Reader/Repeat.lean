/-!
# Repetition in a computation that can fail

A computation of type `EStateM ε σ α` keeps its state when it fails, so whatever it consumed
before a failure stays consumed. This file runs such a computation again and again until it says
that it is done. The repetition ends because every step that yields something leaves a smaller
state.

## Main definitions

* `Keeps`, `Consumes`: a computation that leaves a state no larger, or smaller, than it found.
* `Yields`: a step that consumes something whenever it yields something.
* `repeatWhile`: the values of all steps until one yields nothing.
* `Repeats`: the steps of a repetition that ends well.

## Main results

* `repeatWhile_eq_ok_iff`: a repetition ends well if its steps do.
-/

namespace CoverageFlow

variable {ε σ α β : Type}

/-! ### Sequences of two computations -/

theorem run_bind (p : EStateM ε σ α) (f : α → EStateM ε σ β) (s : σ) :
    (p >>= f) s =
      match p s with
      | .ok a s' => f a s'
      | .error e s' => .error e s' := rfl

theorem run_get_bind (f : σ → EStateM ε σ α) (s : σ) : (get >>= f) s = f s s := rfl

theorem bind_eq_ok_iff {p : EStateM ε σ α} {f : α → EStateM ε σ β} {s s'' : σ} {b : β} :
    (p >>= f) s = .ok b s'' ↔ ∃ a s', p s = .ok a s' ∧ f a s' = .ok b s'' := by
  rw [run_bind]
  cases p s with
  | ok a s' => exact ⟨fun h => ⟨a, s', rfl, h⟩, fun ⟨_, _, h, h'⟩ => by cases h; exact h'⟩
  | error e s' => exact ⟨nofun, fun ⟨_, _, h, _⟩ => nomatch h⟩

/-! ### What a computation leaves -/

/-- A computation that leaves a state no larger than it found. -/
def Keeps (size : σ → Nat) (p : EStateM ε σ α) : Prop :=
  ∀ s a s', p s = .ok a s' → size s' ≤ size s

/-- A computation that leaves a smaller state than it found. -/
def Consumes (size : σ → Nat) (p : EStateM ε σ α) : Prop :=
  ∀ s a s', p s = .ok a s' → size s' < size s

/-- A step that leaves a state no larger than it found, and a smaller one whenever it yields a
value. -/
structure Yields (size : σ → Nat) (step : EStateM ε σ (Option α)) : Prop where
  keeps : Keeps size step
  smaller : ∀ s a s', step s = .ok (some a) s' → size s' < size s

section

variable {size : σ → Nat}

theorem Consumes.keeps {p : EStateM ε σ α} (h : Consumes size p) : Keeps size p :=
  fun s a s' hs => Nat.le_of_lt (h s a s' hs)

theorem Consumes.yields {p : EStateM ε σ (Option α)} (h : Consumes size p) : Yields size p :=
  ⟨h.keeps, fun s a s' hs => h s (some a) s' hs⟩

theorem Keeps.bind {p : EStateM ε σ α} {f : α → EStateM ε σ β} (hp : Keeps size p)
    (hf : ∀ a, Keeps size (f a)) : Keeps size (p >>= f) := by
  intro s b s'' h
  obtain ⟨a, s', h₁, h₂⟩ := bind_eq_ok_iff.1 h
  exact Nat.le_trans (hf a s' b s'' h₂) (hp s a s' h₁)

theorem Consumes.bind {p : EStateM ε σ α} {f : α → EStateM ε σ β} (hp : Consumes size p)
    (hf : ∀ a, Keeps size (f a)) : Consumes size (p >>= f) := by
  intro s b s'' h
  obtain ⟨a, s', h₁, h₂⟩ := bind_eq_ok_iff.1 h
  exact Nat.lt_of_le_of_lt (hf a s' b s'' h₂) (hp s a s' h₁)

theorem Keeps.bind_consumes {p : EStateM ε σ α} {f : α → EStateM ε σ β} (hp : Keeps size p)
    (hf : ∀ a, Consumes size (f a)) : Consumes size (p >>= f) := by
  intro s b s'' h
  obtain ⟨a, s', h₁, h₂⟩ := bind_eq_ok_iff.1 h
  exact Nat.lt_of_lt_of_le (hf a s' b s'' h₂) (hp s a s' h₁)

theorem Keeps.bind_yields {p : EStateM ε σ α} {f : α → EStateM ε σ (Option β)}
    (hp : Keeps size p) (hf : ∀ a, Yields size (f a)) : Yields size (p >>= f) := by
  refine ⟨hp.bind fun a => (hf a).keeps, fun s b s'' h => ?_⟩
  obtain ⟨a, s', h₁, h₂⟩ := bind_eq_ok_iff.1 h
  exact Nat.lt_of_lt_of_le ((hf a).smaller s' b s'' h₂) (hp s a s' h₁)

theorem keeps_pure (a : α) : Keeps size (pure a : EStateM ε σ α) := by
  intro s b s' h
  cases h
  exact Nat.le_refl _

theorem keeps_get : Keeps size (get : EStateM ε σ σ) := by
  intro s b s' h
  cases h
  exact Nat.le_refl _

theorem consumes_throw (e : ε) : Consumes size (throw e : EStateM ε σ α) :=
  nofun

theorem yields_none : Yields size (pure none : EStateM ε σ (Option α)) :=
  ⟨keeps_pure _, nofun⟩

end

/-! ### Repetition -/

/-- The values of all steps until one yields nothing. Each step is told the value of the step
before it. -/
def repeatWhile (size : σ → Nat) (step : Option α → EStateM ε σ (Option α))
    (h : ∀ previous, Yields size (step previous)) (previous : Option α) (s : σ) :
    EStateM.Result ε σ (List α) :=
  match _hs : step previous s with
  | .error e s' => .error e s'
  | .ok none s' => .ok [] s'
  | .ok (some a) s' =>
    match repeatWhile size step h (some a) s' with
    | .error e s'' => .error e s''
    | .ok as s'' => .ok (a :: as) s''
termination_by size s
decreasing_by exact (h _).smaller _ _ _ ‹_›

theorem keeps_repeatWhile {size : σ → Nat} {step : Option α → EStateM ε σ (Option α)}
    (h : ∀ previous, Yields size (step previous)) (previous : Option α) :
    Keeps size (repeatWhile size step h previous) := by
  intro s
  fun_induction repeatWhile size step h previous s with
  | case1 => nofun
  | case2 previous s s' hs => rintro _ _ ⟨⟩; exact (h _).keeps _ _ _ hs
  | case3 => nofun
  | case4 previous s a s' hs as s'' hr ih =>
    rintro _ _ ⟨⟩
    exact Nat.le_trans (ih _ _ hr) (Nat.le_of_lt ((h _).smaller _ _ _ hs))

section

variable {size : σ → Nat} {step : Option α → EStateM ε σ (Option α)}
  {h : ∀ previous, Yields size (step previous)} {previous : Option α} {s t u : σ} {a : α} {x : ε}

/-- A repetition fails with a step. -/
theorem repeatWhile_eq_error (hs : step previous s = .error x t) :
    repeatWhile size step h previous s = .error x t := by
  rw [repeatWhile]
  split
  · next ht =>
    cases hs.symm.trans ht
    rfl
  · next ht => cases hs.symm.trans ht
  · next ht => cases hs.symm.trans ht

theorem repeatWhile_eq_error_of_next (hs : step previous s = .ok (some a) t)
    (hrest : repeatWhile size step h (some a) t = .error x u) :
    repeatWhile size step h previous s = .error x u := by
  rw [repeatWhile]
  split
  · next ht => cases hs.symm.trans ht
  · next ht => cases hs.symm.trans ht
  · next ht =>
    cases hs.symm.trans ht
    rw [hrest]

end

/-- The steps of a repetition that ends well, with the values that they yield. -/
inductive Repeats (step : Option α → EStateM ε σ (Option α)) : Option α → σ → List α → σ → Prop
  | stop {previous : Option α} {s s' : σ} (last : step previous s = .ok none s') :
      Repeats step previous s [] s'
  | next {previous : Option α} {s s' s'' : σ} {a : α} {as : List α}
      (first : step previous s = .ok (some a) s') (rest : Repeats step (some a) s' as s'') :
      Repeats step previous s (a :: as) s''

theorem Repeats.repeatWhile_eq {size : σ → Nat} {step : Option α → EStateM ε σ (Option α)}
    {h : ∀ previous, Yields size (step previous)} {previous : Option α} {s s' : σ} {as : List α}
    (hr : Repeats step previous s as s') : repeatWhile size step h previous s = .ok as s' := by
  induction hr with
  | stop last =>
    rw [repeatWhile]
    split
    · next hs => cases last.symm.trans hs
    · next hs =>
      cases last.symm.trans hs
      rfl
    · next hs => cases last.symm.trans hs
  | next first rest ih =>
    rw [repeatWhile]
    split
    · next hs => cases first.symm.trans hs
    · next hs => cases first.symm.trans hs
    · next hs =>
      cases first.symm.trans hs
      rw [ih]

theorem repeats_of_repeatWhile {size : σ → Nat} {step : Option α → EStateM ε σ (Option α)}
    {h : ∀ previous, Yields size (step previous)} {previous : Option α} {s s' : σ} {as : List α} :
    repeatWhile size step h previous s = .ok as s' → Repeats step previous s as s' := by
  fun_induction repeatWhile size step h previous s generalizing as with
  | case1 => nofun
  | case2 previous s s₁ hs =>
    rintro ⟨⟩
    exact .stop hs
  | case3 => nofun
  | case4 previous s a s₁ hs as' s₂ hr ih =>
    rintro ⟨⟩
    exact .next hs (ih hr)

/-- A repetition ends well if its steps do. -/
theorem repeatWhile_eq_ok_iff {size : σ → Nat} {step : Option α → EStateM ε σ (Option α)}
    {h : ∀ previous, Yields size (step previous)} {previous : Option α} {s s' : σ} {as : List α} :
    repeatWhile size step h previous s = .ok as s' ↔ Repeats step previous s as s' :=
  ⟨repeats_of_repeatWhile, Repeats.repeatWhile_eq⟩

end CoverageFlow
