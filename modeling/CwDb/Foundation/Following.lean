import CwDb.Foundation.Refinement

/-! One code after another, until something is lost.

Two codes over different states may do the same only while the first state keeps what the
second one can follow. What is lost stays lost, and nothing is said of the codes from then on
(`Follows`). -/
namespace Foundation

variable {ε σ τ α β : Type} {lost : σ → Prop} {R : σ → τ → Prop}

/-- From related states, `x` ends where all is lost, or does what `y` does. -/
structure Follows (lost : σ → Prop) (R : σ → τ → Prop) (x : EStateM ε σ α) (y : EStateM ε τ α) :
    Prop where
  keeps : Keeps lost x
  agree : ∀ s t, R s t → lost (stateOf (x s)) ∨ Agree R (x s) (y t)

namespace Follows
variable {x x' : EStateM ε σ α} {y y' : EStateM ε τ α} {f : α → EStateM ε σ β}
  {g : α → EStateM ε τ β}

theorem pure (a : α) : Follows lost R (pure a : EStateM ε σ α) (pure a : EStateM ε τ α) :=
  ⟨keeps_pure a, fun _ _ h => .inr (.ok a h)⟩

theorem throw (e : ε) : Follows lost R (throw e : EStateM ε σ α) (throw e : EStateM ε τ α) :=
  ⟨keeps_throw e, fun _ _ h => .inr (.error e h)⟩

theorem fromExcept (z : Except ε α) : Follows lost R (Foundation.fromExcept z) (Foundation.fromExcept z) :=
  ⟨keeps_fromExcept z, fun _ _ h => .inr (agree_fromExcept z h)⟩

theorem bind (hx : Follows lost R x y) (hf : ∀ a, Follows lost R (f a) (g a)) :
    Follows lost R (x >>= f) (y >>= g) := by
  refine ⟨keeps_bind hx.keeps fun a => (hf a).keeps, fun s t h => ?_⟩
  rcases hx.agree s t h with hlost | hagree
  · left
    cases hrun : x s with
    | ok a u =>
      rw [hrun] at hlost
      rw [bind_ok hrun]
      exact (hf a).keeps u hlost
    | error e u =>
      rw [hrun] at hlost
      rw [bind_error hrun]
      exact hlost
  · cases hrun : y t with
    | ok a u =>
      rw [hrun] at hagree
      obtain ⟨s', hs, h'⟩ := hagree.of_ok
      rw [bind_ok hs, bind_ok hrun]
      exact (hf a).agree s' u h'
    | error e u =>
      rw [hrun] at hagree
      obtain ⟨s', hs, h'⟩ := hagree.of_error
      rw [bind_error hs, bind_error hrun]
      exact .inr (.error e h')

theorem ite {c : Prop} [Decidable c] (hx : Follows lost R x y) (hx' : Follows lost R x' y') :
    Follows lost R (if c then x else x') (if c then y else y') := by
  split
  · exact hx
  · exact hx'

theorem modify {f : σ → σ} {g : τ → τ} (hlost : ∀ s, lost s → lost (f s))
    (h : ∀ s t, R s t → R (f s) (g t)) :
    Follows lost R (modify f : EStateM ε σ PUnit) (modify g : EStateM ε τ PUnit) :=
  ⟨keeps_modify hlost, fun s t hst => .inr (Agree.ok PUnit.unit (h s t hst))⟩

/-- Call by call, and so in every run. -/
theorem runCalls {ι : Type} {step : ι → EStateM ε σ β} {step' : ι → EStateM ε τ β}
    (h : ∀ c, Follows lost R (step c) (step' c)) (calls : List ι) :
    Follows lost R (Foundation.runCalls step calls) (Foundation.runCalls step' calls) := by
  induction calls with
  | nil => exact .pure []
  | cons c cs ih => exact (h c).bind fun b => ih.bind fun bs => .pure (b :: bs)

end Follows
end Foundation
