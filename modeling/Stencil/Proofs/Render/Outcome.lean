import Stencil.Render.Eval

/-!
# Reasoning about evaluation

Three judgements on a computation that may fault and changes the world. `Ensures P x` says that
what `x` gives satisfies `P`, and `Blames P x` that the fault with which it stops does.
`Related R x y` says that two computations go the same way: from one world they reach the same
world, and either stop with the same fault or give results that `R` relates. All go through the
computation step by step (`Ensures.bind`, `Blames.bind`, `Related.bind`).
-/
namespace Stencil.Eval

variable {σ α β γ δ : Type}

/-! ## One step -/

theorem bind_apply (x : Eval σ α) (f : α → Eval σ β) (w : World σ) :
    (x >>= f) w = match x w with
      | (.ok a, w') => f a w'
      | (.error e, w') => (.error e, w') := by
  change ExceptT.bindCont f (x w).1 (x w).2 = _
  rcases x w with ⟨r, w'⟩
  cases r <;> rfl

theorem bind_ok {x : Eval σ α} {f : α → Eval σ β} {w w' : World σ} {a : α}
    (h : x w = (.ok a, w')) : (x >>= f) w = f a w' := by rw [bind_apply, h]

theorem bind_error {x : Eval σ α} {f : α → Eval σ β} {w w' : World σ}
    {e : Located RenderFault} (h : x w = (.error e, w')) : (x >>= f) w = (.error e, w') := by
  rw [bind_apply, h]

theorem bind_eq_ok_iff {x : Eval σ α} {f : α → Eval σ β} {w w' : World σ} {b : β} :
    (x >>= f) w = (.ok b, w') ↔ ∃ a w₁, x w = (.ok a, w₁) ∧ f a w₁ = (.ok b, w') := by
  constructor
  · intro h
    rcases hr : x w with ⟨e | a, w₁⟩
    · rw [bind_error hr] at h
      cases h
    · rw [bind_ok hr] at h
      exact ⟨a, w₁, rfl, h⟩
  · rintro ⟨a, w₁, ha, h⟩
    rw [bind_ok ha, h]

/-! ## Results -/

/-- Whatever the computation gives, it satisfies `P`. -/
def Ensures (P : α → Prop) (x : Eval σ α) : Prop := ∀ w a w', x w = (.ok a, w') → P a

namespace Ensures

theorem pure {P : α → Prop} {a : α} (h : P a) : Ensures P (Pure.pure a : Eval σ α) := by
  intro w b w' hb
  cases hb
  exact h

theorem fault {P : α → Prop} (span : Span) (f : RenderFault) :
    Ensures P (Eval.fault span f : Eval σ α) := by
  intro w a w' h
  cases h

theorem bind {P : α → Prop} {Q : β → Prop} {x : Eval σ α} {f : α → Eval σ β}
    (hx : Ensures P x) (hf : ∀ a, P a → Ensures Q (f a)) : Ensures Q (x >>= f) := by
  intro w b w' h
  obtain ⟨a, v, ha, h⟩ := bind_eq_ok_iff.1 h
  exact hf a (hx w a v ha) v b w' h

theorem liftAt {P : α → Prop} {ε : Type} {span : Span} {f : ε → RenderFault} {r : Except ε α}
    (h : ∀ a, r = .ok a → P a) : Ensures P (Eval.liftAt span f r : Eval σ α) := by
  cases r with
  | ok a => exact .pure (h a rfl)
  | error e => exact .fault _ _

theorem trivial (x : Eval σ α) : Ensures (fun _ => True) x := fun _ _ _ _ => True.intro

/-- Computations that start alike go on alike if they do so from what is ensured. -/
theorem bind_congr {P : α → Prop} {x : Eval σ α} {f g : α → Eval σ β} (hx : Ensures P x)
    (h : ∀ a, P a → f a = g a) : x >>= f = x >>= g := by
  funext w
  rcases hr : x w with ⟨e | a, w'⟩
  · rw [bind_error hr, bind_error hr]
  · rw [bind_ok hr, bind_ok hr, h a (hx w a w' hr)]

end Ensures

/-! ## Faults -/

/-- Whenever the computation stops, its fault satisfies `P`. -/
def Blames (P : Located RenderFault → Prop) (x : Eval σ α) : Prop :=
  ∀ w f w', x w = (.error f, w') → P f

namespace Blames

variable {P : Located RenderFault → Prop}

theorem pure (a : α) : Blames P (Pure.pure a : Eval σ α) := by
  intro w f w' h
  cases h

theorem fault {span : Span} {f : RenderFault} (h : P ⟨f, span⟩) :
    Blames P (Eval.fault span f : Eval σ α) := by
  intro w f' w' hf
  cases hf
  exact h

theorem bind {x : Eval σ α} {f : α → Eval σ β} (hx : Blames P x) (hf : ∀ a, Blames P (f a)) :
    Blames P (x >>= f) := by
  intro w g w' h
  rcases hr : x w with ⟨e | a, v⟩
  · rw [bind_error hr] at h
    cases h
    exact hx w _ _ hr
  · rw [bind_ok hr] at h
    exact hf a v g w' h

theorem liftAt {ε : Type} {span : Span} {f : ε → RenderFault} {r : Except ε α}
    (h : ∀ e, P ⟨f e, span⟩) : Blames P (Eval.liftAt span f r : Eval σ α) := by
  cases r with
  | ok a => exact .pure a
  | error e => exact .fault (h e)

theorem mapM {f : α → Eval σ β} (h : ∀ a, Blames P (f a)) : ∀ items : List α,
    Blames P (items.mapM f)
  | [] => .pure []
  | item :: items => by
    rw [List.mapM_cons]
    exact (h item).bind fun b => (mapM h items).bind fun bs => .pure (b :: bs)

end Blames

/-! ## Two computations -/

/-- Both failed for the same reason, or both succeeded with results that `R` relates. -/
inductive Alike {ε : Type} (R : α → β → Prop) : Except ε α → Except ε β → Prop
  | ok {a : α} {b : β} : R a b → Alike R (.ok a) (.ok b)
  | error (e : ε) : Alike R (.error e) (.error e)

/-- The computations reach the same worlds with outcomes that are alike. -/
def Related (R : α → β → Prop) (x : Eval σ α) (y : Eval σ β) : Prop :=
  ∀ w, Alike R (x w).1 (y w).1 ∧ (x w).2 = (y w).2

namespace Related

theorem pure {R : α → β → Prop} {a : α} {b : β} (h : R a b) :
    Related R (Pure.pure a : Eval σ α) (Pure.pure b) := fun _ => ⟨.ok h, rfl⟩

theorem bind {R : α → β → Prop} {S : γ → δ → Prop} {x : Eval σ α} {y : Eval σ β}
    {f : α → Eval σ γ} {g : β → Eval σ δ} (hx : Related R x y)
    (hf : ∀ a b, R a b → Related S (f a) (g b)) : Related S (x >>= f) (y >>= g) := by
  intro w
  obtain ⟨ha, hw⟩ := hx w
  rcases hr : x w with ⟨r, v⟩
  rcases hs : y w with ⟨s, v'⟩
  rw [hr, hs] at ha hw
  obtain rfl : v = v' := hw
  cases ha with
  | ok hab =>
    rw [bind_ok hr, bind_ok hs]
    exact hf _ _ hab v
  | error e =>
    rw [bind_error hr, bind_error hs]
    exact ⟨.error e, rfl⟩

/-- A computation is related to itself by what it ensures. -/
theorem of_ensures {P : α → Prop} {x : Eval σ α} (h : Ensures P x) :
    Related (fun a b => a = b ∧ P a) x x := by
  intro w
  rcases hr : x w with ⟨r, v⟩
  cases r with
  | ok a => exact ⟨.ok ⟨rfl, h w a v hr⟩, rfl⟩
  | error e => exact ⟨.error e, rfl⟩

theorem foldlM {ι : Type} {R : α → β → Prop} {f : α → ι → Eval σ α} {g : β → ι → Eval σ β} :
    ∀ (items : List ι) {a : α} {b : β}, R a b →
      (∀ a b, R a b → ∀ i ∈ items, Related R (f a i) (g b i)) →
      Related R (items.foldlM f a) (items.foldlM g b)
  | [], _, _, hab, _ => .pure hab
  | i :: items, a, b, hab, h => by
    rw [List.foldlM_cons, List.foldlM_cons]
    exact (h a b hab i (by simp)).bind fun _ _ hab' =>
      foldlM items hab' fun _ _ hr j hj => h _ _ hr j (by simp [hj])

end Related
end Stencil.Eval
