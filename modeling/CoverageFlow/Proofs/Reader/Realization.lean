import CoverageFlow.Error
import CoverageFlow.Reader.Repeat
import Mathlib

/-!
# Computations that realize a relation

What a reading step does is told by a relation between what stands before it, the value that it
yields, and what stands after it. A step realizes the relation if it succeeds exactly where the
relation allows it to, with a value and a rest that the relation allows, and otherwise fails for
one of some given reasons. The relation speaks about views of the states and about what values
mean, not about the states and the values themselves.

Relations are put together as steps are: one after the other, or repeated until a step yields
nothing.

## Main definitions

* `Meets`: how a run of a step agrees with a relation.
* `Realizes`: all runs of a step do. `Recognizes`: the same, where no value matters.
* `Iterates`: a relation that is repeated.

## Main results

* `Realizes.bind`, `Realizes.repeatWhile`: steps that are put together.
* `Meets.exists_ok_iff`: when a step succeeds.
-/

namespace CoverageFlow

variable {X σ α β γ δ : Type} {E : Set Error} {H : X → σ → Prop} {V : α → β → Prop}
  {W : γ → δ → Prop}

/-- A run ends in a value and a state as demanded if there are any, and otherwise fails for one of
the reasons in `E`. -/
structure Meets (E : Set Error) (H : X → σ → Prop) (V : α → β → Prop) (F : β → X → Prop)
    (result : EStateM.Result Failure σ α) : Prop where
  sound : ∀ a s, result = .ok a s → ∃ b y, V a b ∧ H y s ∧ F b y
  complete : ∀ b y, F b y → ∃ a s, result = .ok a s ∧ V a b ∧ H y s
  fails : ∀ e s, result = .error e s → e.error ∈ E

/-- A step relates what it finds, what it yields and what it leaves as the relation `F` does, seen
through `H`, which relates views to states, and through `V`, which relates values to what they
mean. -/
def Realizes (E : Set Error) (H : X → σ → Prop) (V : α → β → Prop) (p : EStateM Failure σ α)
    (F : X → β → X → Prop) : Prop :=
  ∀ x s, H x s → Meets E H V (F x) (p s)

/-- A step relates what it finds and what it leaves as the relation `R` does, whatever it yields. -/
def Recognizes (E : Set Error) (H : X → σ → Prop) (p : EStateM Failure σ α) (R : X → X → Prop) :
    Prop :=
  Realizes E H (fun _ (_ : Unit) => True) p fun x _ y => R x y

/-! ### Single runs -/

theorem Meets.ok {F : β → X → Prop} {a : α} {s : σ} {b : β} {y : X} (ha : V a b) (hs : H y s)
    (hF : F b y) (hunique : ∀ b' y', F b' y' → b' = b ∧ y' = y) : Meets E H V F (.ok a s) where
  sound := by
    rintro _ _ ⟨⟩
    exact ⟨b, y, ha, hs, hF⟩
  complete b' y' h := by
    obtain ⟨rfl, rfl⟩ := hunique b' y' h
    exact ⟨a, s, rfl, ha, hs⟩
  fails := by rintro _ _ ⟨⟩

theorem Meets.error {F : β → X → Prop} {e : Failure} {s : σ} (he : e.error ∈ E)
    (hF : ∀ b y, ¬ F b y) : Meets (α := α) E H V F (.error e s) where
  sound := by rintro _ _ ⟨⟩
  complete b y h := absurd h (hF b y)
  fails := by
    rintro _ _ ⟨⟩
    exact he

theorem Meets.congr {F F' : β → X → Prop} {result : EStateM.Result Failure σ α}
    (h : Meets E H V F result) (hF : ∀ b y, F b y ↔ F' b y) : Meets E H V F' result := by
  obtain rfl : F = F' := funext fun b => funext fun y => propext (hF b y)
  exact h

/-- A run succeeds exactly where the relation allows it to. -/
theorem Meets.exists_ok_iff {F : β → X → Prop} {result : EStateM.Result Failure σ α}
    (h : Meets E H V F result) : (∃ a s, result = .ok a s) ↔ ∃ b y, F b y := by
  constructor
  · rintro ⟨a, s, hend⟩
    obtain ⟨b, y, -, -, hF⟩ := h.sound a s hend
    exact ⟨b, y, hF⟩
  · rintro ⟨b, y, hF⟩
    obtain ⟨a, s, hend, -⟩ := h.complete b y hF
    exact ⟨a, s, hend⟩

/-- A run inside another computation, which makes its own state of the one that the run leaves. -/
def inside {τ : Type} (g : σ → τ) : EStateM.Result Failure σ α → EStateM.Result Failure τ α
  | .ok a s => .ok a (g s)
  | .error e s => .error e (g s)

theorem Meets.inside {Y τ : Type} {K : Y → τ → Prop} {F : β → X → Prop}
    {result : EStateM.Result Failure σ α} (h : Meets E H V F result) {g : σ → τ} {k : X → Y}
    (hg : ∀ y s, H y s → K (k y) (g s)) :
    Meets E K V (fun b z => ∃ y, F b y ∧ z = k y) (inside g result) := by
  cases result with
  | ok a s =>
    refine ⟨?_, ?_, by rintro _ _ ⟨⟩⟩
    · rintro _ _ ⟨⟩
      obtain ⟨b, y, hab, hy, hF⟩ := h.sound a s rfl
      exact ⟨b, k y, hab, hg y s hy, y, hF, rfl⟩
    · rintro b _ ⟨y, hF, rfl⟩
      obtain ⟨_, _, ⟨⟩, hab, hy⟩ := h.complete b y hF
      exact ⟨a, g s, rfl, hab, hg y s hy⟩
  | error e s =>
    refine .error (h.fails e s rfl) ?_
    rintro b _ ⟨y, hF, -⟩
    obtain ⟨_, _, ⟨⟩, -⟩ := h.complete b y hF

/-! ### One step after the other -/

section

variable {p : EStateM Failure σ α} {f : α → EStateM Failure σ γ} {F F' : X → β → X → Prop}
  {G : β → X → δ → X → Prop}

theorem Realizes.congr (h : Realizes E H V p F) (hF : ∀ x b y, F x b y ↔ F' x b y) :
    Realizes E H V p F' :=
  fun x s hs => (h x s hs).congr (hF x)

theorem realizes_pure {a : α} {b : β} (h : V a b) :
    Realizes E H V (pure a) fun x b' y => b' = b ∧ y = x :=
  fun _ _ hs => .ok h hs ⟨rfl, rfl⟩ fun _ _ => id

/-- The state itself means its view. -/
theorem realizes_get : Realizes E H (fun s x => H x s) (get : EStateM Failure σ σ)
    fun x b y => b = x ∧ y = x :=
  fun _ _ hs => .ok hs hs ⟨rfl, rfl⟩ fun _ _ => id

/-- What two steps relate, one after the other, is related by both together. -/
theorem Realizes.bind (hp : Realizes E H V p F)
    (hf : ∀ a b, V a b → Realizes E H W (f a) (G b)) :
    Realizes E H W (p >>= f) fun x c z => ∃ b y, F x b y ∧ G b y c z := by
  intro x s hs
  have hrun := hp x s hs
  constructor
  case sound =>
    intro c s'' h
    obtain ⟨a, s', ha, hc⟩ := bind_eq_ok_iff.1 h
    obtain ⟨b, y, hab, hy, hF⟩ := hrun.sound a s' ha
    obtain ⟨d, z, hcd, hz, hG⟩ := (hf a b hab y s' hy).sound c s'' hc
    exact ⟨d, z, hcd, hz, b, y, hF, hG⟩
  case complete =>
    rintro d z ⟨b, y, hF, hG⟩
    obtain ⟨a, s', ha, hab, hy⟩ := hrun.complete b y hF
    obtain ⟨c, s'', hc, hcd, hz⟩ := (hf a b hab y s' hy).complete d z hG
    exact ⟨c, s'', bind_eq_ok_iff.2 ⟨a, s', ha, hc⟩, hcd, hz⟩
  case fails =>
    intro e s'' h
    rw [run_bind] at h
    cases hend : p s with
    | ok a s' =>
      rw [hend] at h
      obtain ⟨b, y, hab, hy, -⟩ := hrun.sound a s' hend
      exact (hf a b hab y s' hy).fails e s'' h
    | error e' s' =>
      rw [hend] at h
      cases h
      exact hrun.fails e s'' hend

theorem Realizes.map (hp : Realizes E H V p F) {g : α → γ} {k : β → δ}
    (hg : ∀ a b, V a b → W (g a) (k b)) :
    Realizes E H W (p >>= fun a => pure (g a)) fun x d y => ∃ b, F x b y ∧ d = k b := by
  refine (hp.bind fun a b hab => realizes_pure (hg a b hab)).congr fun x d z => ?_
  constructor
  · rintro ⟨b, y, hF, rfl, rfl⟩
    exact ⟨b, hF, rfl⟩
  · rintro ⟨b, hF, rfl⟩
    exact ⟨b, z, hF, rfl, rfl⟩

/-- The same for values that mean themselves. -/
theorem Realizes.bind_eq {F : X → α → X → Prop} {G : α → X → δ → X → Prop}
    (hp : Realizes E H Eq p F) (hf : ∀ a, Realizes E H W (f a) (G a)) :
    Realizes E H W (p >>= f) fun x c z => ∃ a y, F x a y ∧ G a y c z :=
  hp.bind fun a _ hab => hab ▸ hf a

theorem Realizes.map_eq {F : X → α → X → Prop} (hp : Realizes E H Eq p F) (g : α → γ) :
    Realizes E H Eq (p >>= fun a => pure (g a)) fun x c y => ∃ a, F x a y ∧ c = g a :=
  hp.map fun _ _ => congrArg g

end

section

variable {p : EStateM Failure σ α} {f : α → EStateM Failure σ γ} {R S R' : X → X → Prop}

theorem Realizes.recognizes {F : X → β → X → Prop} (h : Realizes E H V p F) :
    Recognizes E H p fun x y => ∃ b, F x b y := by
  intro x s hs
  have hrun := h x s hs
  constructor
  case sound =>
    intro a s' ha
    obtain ⟨b, y, -, hy, hF⟩ := hrun.sound a s' ha
    exact ⟨(), y, trivial, hy, b, hF⟩
  case complete =>
    rintro - y ⟨b, hF⟩
    obtain ⟨a, s', ha, -, hy⟩ := hrun.complete b y hF
    exact ⟨a, s', ha, trivial, hy⟩
  case fails => exact hrun.fails

theorem Recognizes.congr (h : Recognizes E H p R) (hR : ∀ x y, R x y ↔ R' x y) :
    Recognizes E H p R' :=
  Realizes.congr h fun x _ y => hR x y

theorem recognizes_pure (a : α) : Recognizes E H (pure a) fun x y => y = x :=
  (realizes_pure (b := ()) trivial).congr fun _ _ _ => and_iff_right rfl

/-- What two steps relate, one after the other, is related by both together. -/
theorem Recognizes.bind (hp : Recognizes E H p R) (hf : ∀ a, Recognizes E H (f a) S) :
    Recognizes E H (p >>= f) (Relation.Comp R S) :=
  (Realizes.bind hp fun a _ _ => hf a).congr fun _ _ _ => exists_const Unit

theorem Recognizes.map (hp : Recognizes E H p R) (g : α → γ) :
    Recognizes E H (p >>= fun a => pure (g a)) R :=
  (hp.bind fun a => recognizes_pure (g a)).congr fun x y => by
    simp only [Relation.Comp, exists_eq_right']

/-- A step that yields something, whatever it is. -/
theorem Recognizes.map_some (hp : Recognizes E H p R) (g : α → γ) :
    Realizes E H (Option.Rel fun _ (_ : Unit) => True) (p >>= fun a => pure (some (g a)))
      fun x b y => b = some () ∧ R x y :=
  (Realizes.map hp (k := fun _ => some ()) fun _ _ _ => .some trivial).congr fun x b y => by
    simp only [exists_const, and_comm]

/-- A step that yields nothing. -/
theorem recognizes_none : Realizes E H (Option.Rel fun _ (_ : Unit) => True)
    (pure (none : Option α)) fun x b y => b = none ∧ y = x :=
  realizes_pure .none

end

/-! ### Repetition -/

/-- A relation repeated until it yields nothing, with the values that it yields. Each time it is
told the value before. -/
inductive Iterates (F : Option β → X → Option β → X → Prop) : Option β → X → List β → X → Prop
  | stop {previous : Option β} {x y : X} (last : F previous x none y) :
      Iterates F previous x [] y
  | next {previous : Option β} {x y z : X} {b : β} {bs : List β}
      (first : F previous x (some b) y) (rest : Iterates F (some b) y bs z) :
      Iterates F previous x (b :: bs) z

section

variable {size : σ → ℕ} {step : Option α → EStateM Failure σ (Option α)}
  {F : Option β → X → Option β → X → Prop}

theorem iterates_of_repeats
    (hstep : ∀ a b, Option.Rel V a b → Realizes E H (Option.Rel V) (step a) (F b))
    {previous : Option α} {s s' : σ} {as : List α} (hr : Repeats step previous s as s') :
    ∀ b x, Option.Rel V previous b → H x s →
      ∃ bs y, List.Forall₂ V as bs ∧ H y s' ∧ Iterates F b x bs y := by
  induction hr with
  | stop last =>
    intro b x hprevious hs
    obtain ⟨_, y, hnone, hy, hF⟩ := (hstep _ b hprevious x _ hs).sound _ _ last
    cases hnone
    exact ⟨[], y, .nil, hy, .stop hF⟩
  | next first _ ih =>
    intro b x hprevious hs
    obtain ⟨_, y, hsome, hy, hF⟩ := (hstep _ b hprevious x _ hs).sound _ _ first
    cases hsome with
    | some hab =>
      obtain ⟨bs, z, hbs, hz, hrest⟩ := ih _ y (.some hab) hy
      exact ⟨_ :: bs, z, .cons hab hbs, hz, .next hF hrest⟩

theorem repeats_of_iterates
    (hstep : ∀ a b, Option.Rel V a b → Realizes E H (Option.Rel V) (step a) (F b))
    {b : Option β} {x z : X} {bs : List β} (hi : Iterates F b x bs z) :
    ∀ previous s, Option.Rel V previous b → H x s →
      ∃ as s', Repeats step previous s as s' ∧ List.Forall₂ V as bs ∧ H z s' := by
  induction hi with
  | stop last =>
    intro previous s hprevious hs
    obtain ⟨_, s', h, hnone, hy⟩ := (hstep _ _ hprevious _ s hs).complete _ _ last
    cases hnone
    exact ⟨[], s', .stop h, .nil, hy⟩
  | next first _ ih =>
    intro previous s hprevious hs
    obtain ⟨_, s', h, hsome, hy⟩ := (hstep _ _ hprevious _ s hs).complete _ _ first
    cases hsome with
    | some hab =>
      obtain ⟨as, s'', hrest, has, hz⟩ := ih _ s' (.some hab) hy
      exact ⟨_ :: as, s'', .next h hrest, .cons hab has, hz⟩

/-- A repeated step relates what its repeated relation does. -/
theorem Realizes.repeatWhile {h : ∀ previous, Yields size (step previous)}
    (hstep : ∀ a b, Option.Rel V a b → Realizes E H (Option.Rel V) (step a) (F b))
    {previous : Option α} {b : Option β} (hprevious : Option.Rel V previous b) :
    Realizes E H (List.Forall₂ V) (CoverageFlow.repeatWhile size step h previous)
      (Iterates F b) := by
  intro x s hs
  constructor
  case sound =>
    intro as s' has
    exact iterates_of_repeats hstep (repeatWhile_eq_ok_iff.1 has) b x hprevious hs
  case complete =>
    intro bs y hbs
    obtain ⟨as, s', hrepeats, has, hy⟩ := repeats_of_iterates hstep hbs previous s hprevious hs
    exact ⟨as, s', hrepeats.repeatWhile_eq, has, hy⟩
  case fails =>
    intro e s' herror
    fun_induction CoverageFlow.repeatWhile size step h previous s generalizing x b with
    | case1 previous s e' s₁ hs₁ =>
      cases herror
      exact (hstep previous b hprevious x s hs).fails _ _ hs₁
    | case2 => cases herror
    | case3 previous s a s₁ hs₁ e' s₂ hs₂ ih =>
      cases herror
      obtain ⟨_, y, hsome, hy, -⟩ := (hstep previous b hprevious x s hs).sound _ _ hs₁
      cases hsome with
      | some hab => exact ih (.some hab) y hy hs₂
    | case4 => cases herror

end

/-- Where no value matters, a relation is repeated any number of times until it stops. -/
theorem exists_iterates_iff {R S : X → X → Prop} {b : Option Unit} {x z : X} :
    (∃ bs, Iterates (fun _ x b y => b = some () ∧ R x y ∨ b = none ∧ S x y) b x bs z) ↔
      Relation.Comp (Relation.ReflTransGen R) S x z := by
  constructor
  · rintro ⟨bs, h⟩
    induction h with
    | stop last =>
      obtain ⟨⟨⟩, -⟩ | ⟨-, hS⟩ := last
      exact ⟨_, .refl, hS⟩
    | next first _ ih =>
      obtain ⟨-, hR⟩ | ⟨⟨⟩, -⟩ := first
      obtain ⟨y, hy, hS⟩ := ih
      exact ⟨y, .head hR hy, hS⟩
  · rintro ⟨y, hy, hS⟩
    induction hy using Relation.ReflTransGen.head_induction_on generalizing b with
    | refl => exact ⟨[], .stop (.inr ⟨rfl, hS⟩)⟩
    | head hR _ ih =>
      obtain ⟨bs, hrest⟩ := ih (b := some ())
      exact ⟨() :: bs, .next (.inl ⟨rfl, hR⟩) hrest⟩

theorem Recognizes.repeatWhile {size : σ → ℕ} {step : EStateM Failure σ (Option α)}
    {h : ∀ _ : Option α, Yields size step} {R S : X → X → Prop}
    (hstep : Realizes E H (Option.Rel fun _ (_ : Unit) => True) step
      fun x b y => b = some () ∧ R x y ∨ b = none ∧ S x y) :
    Recognizes E H (CoverageFlow.repeatWhile size (fun _ => step) h none)
      (Relation.Comp (Relation.ReflTransGen R) S) :=
  (Realizes.repeatWhile (fun _ _ _ => hstep) .none).recognizes.congr fun _ _ =>
    exists_iterates_iff

end CoverageFlow
