import Mathlib.Logic.Basic

/-! Computations that keep their state when they throw.

`EStateM` is the meaning of code with mutable state and exceptions: a throw ends
the computation, and the state it leaves is the one reached so far. This file
has the rules the proofs about such code use: how a sequence runs once its first
part is known, what a sequence that returned (or threw) says about its parts, and
`Keeps`, a predicate of the state that survives whatever the outcome. -/
namespace Foundation

variable {ε σ τ α β : Type}

/-- The state an outcome leaves, thrown or not. -/
def stateOf : EStateM.Result ε σ α → σ
  | .ok _ s => s
  | .error _ s => s

@[simp] theorem stateOf_ok (a : α) (s : σ) : stateOf (.ok a s : EStateM.Result ε σ α) = s := rfl
@[simp] theorem stateOf_error (e : ε) (s : σ) :
    stateOf (.error e s : EStateM.Result ε σ α) = s := rfl

/-- Whether a computation returned. -/
def returned : EStateM.Result ε σ α → Bool
  | .ok _ _ => true
  | .error _ _ => false

theorem returned_iff {r : EStateM.Result ε σ α} : returned r = true ↔ ∃ a s, r = .ok a s := by
  cases r with
  | ok a s => simp [returned]
  | error e s => simp [returned]

/-- A pure fallible computation, run without touching the state. -/
def fromExcept : Except ε α → EStateM ε σ α
  | .ok a => pure a
  | .error e => throw e

@[simp] theorem except_ok_bind (a : α) (f : α → Except ε β) :
    ((.ok a : Except ε α) >>= f) = f a := rfl

/-- A pure sequence that succeeded: both parts did. -/
theorem except_bind_eq_ok {x : Except ε α} {f : α → Except ε β} {b : β} :
    (x >>= f) = .ok b ↔ ∃ a, x = .ok a ∧ f a = .ok b := by
  cases x with
  | ok a =>
    show f a = .ok b ↔ _
    simp
  | error e =>
    show Except.error e = .ok b ↔ _
    simp

section Running
variable {x : EStateM ε σ α} {f : α → EStateM ε σ β} {s s' : σ} {a : α} {e : ε}

@[simp] theorem pure_apply (a : α) (s : σ) : (pure a : EStateM ε σ α) s = .ok a s := rfl
@[simp] theorem throw_apply (e : ε) (s : σ) : (throw e : EStateM ε σ α) s = .error e s := rfl
@[simp] theorem get_apply (s : σ) : (get : EStateM ε σ σ) s = .ok s s := rfl
@[simp] theorem set_apply (t s : σ) : (set t : EStateM ε σ PUnit) s = .ok ⟨⟩ t := rfl
@[simp] theorem modify_apply (g : σ → σ) (s : σ) :
    (modify g : EStateM ε σ PUnit) s = .ok ⟨⟩ (g s) := rfl

@[simp] theorem fromExcept_ok_apply (a : α) (s : σ) :
    (fromExcept (.ok a) : EStateM ε σ α) s = .ok a s := rfl
@[simp] theorem fromExcept_error_apply (e : ε) (s : σ) :
    (fromExcept (.error e) : EStateM ε σ α) s = .error e s := rfl

theorem bind_ok (h : x s = .ok a s') : (x >>= f) s = f a s' := by
  show EStateM.bind x f s = _
  simp only [EStateM.bind, h]

theorem bind_error (h : x s = .error e s') : (x >>= f) s = .error e s' := by
  show EStateM.bind x f s = _
  simp only [EStateM.bind, h]

@[simp] theorem pure_bind_apply (a : α) (f : α → EStateM ε σ β) (s : σ) :
    (pure a >>= f) s = f a s := rfl
@[simp] theorem throw_bind_apply (e : ε) (f : α → EStateM ε σ β) (s : σ) :
    ((throw e : EStateM ε σ α) >>= f) s = .error e s := rfl
@[simp] theorem get_bind_apply (f : σ → EStateM ε σ β) (s : σ) : (get >>= f) s = f s s := rfl
@[simp] theorem modify_bind_apply (g : σ → σ) (f : PUnit → EStateM ε σ β) (s : σ) :
    ((modify g : EStateM ε σ PUnit) >>= f) s = f ⟨⟩ (g s) := rfl

/-- A sequence that returned: both parts returned. -/
theorem bind_eq_ok {b : β} {s'' : σ} :
    (x >>= f) s = .ok b s'' ↔ ∃ a s', x s = .ok a s' ∧ f a s' = .ok b s'' := by
  show EStateM.bind x f s = _ ↔ _
  unfold EStateM.bind
  cases h : x s with
  | ok a t => simp [and_assoc]
  | error e t => simp

/-- A sequence that threw: one of the parts did. -/
theorem bind_eq_error {s'' : σ} :
    (x >>= f) s = .error e s'' ↔
      x s = .error e s'' ∨ ∃ a s', x s = .ok a s' ∧ f a s' = .error e s'' := by
  show EStateM.bind x f s = _ ↔ _
  unfold EStateM.bind
  cases h : x s with
  | ok a t => simp [and_assoc]
  | error e t => simp

/-- A pure last step throws nothing. -/
theorem bind_pure_eq_error {g : α → β} :
    (x >>= fun a => pure (g a)) s = .error e s' ↔ x s = .error e s' := by
  rw [bind_eq_error]
  refine ⟨fun h => h.resolve_right ?_, .inl⟩
  rintro ⟨a, t, -, h⟩
  cases h

/-- A pure last step decides nothing. -/
theorem returned_bind_pure (x : EStateM ε σ α) (g : α → β) (s : σ) :
    returned ((x >>= fun a => pure (g a)) s) = returned (x s) := by
  cases h : x s with
  | ok a t => rw [bind_ok h, pure_apply]; rfl
  | error e t => rw [bind_error h]; rfl

end Running

/-! ### Exactly when a computation returns -/

/-- It returns, to a state with `Q`, exactly when `P`. -/
def ReturnsIff (P : Prop) (Q : σ → Prop) : EStateM.Result ε σ α → Prop
  | .ok _ s => P ∧ Q s
  | .error _ _ => ¬ P

@[simp] theorem returnsIff_ok {P : Prop} {Q : σ → Prop} {a : α} {s : σ} :
    ReturnsIff P Q (.ok a s : EStateM.Result ε σ α) ↔ P ∧ Q s := Iff.rfl
@[simp] theorem returnsIff_error {P : Prop} {Q : σ → Prop} {e : ε} {s : σ} :
    ReturnsIff P Q (.error e s : EStateM.Result ε σ α) ↔ ¬ P := Iff.rfl

theorem ReturnsIff.imp {P P' : Prop} {Q Q' : σ → Prop} {r : EStateM.Result ε σ α}
    (h : ReturnsIff P Q r) (hP : P ↔ P') (hQ : ∀ s, Q s → Q' s) : ReturnsIff P' Q' r := by
  cases r with
  | ok a s => exact ⟨hP.mp h.1, hQ s h.2⟩
  | error e s => exact fun hP' => h (hP.mpr hP')

/-- Where it returned, the condition is known. -/
theorem ReturnsIff.imp_of {P P' : Prop} {Q Q' : σ → Prop} {r : EStateM.Result ε σ α}
    (h : ReturnsIff P Q r) (hP : P ↔ P') (hQ : P → ∀ s, Q s → Q' s) : ReturnsIff P' Q' r := by
  cases r with
  | ok a s => exact ⟨hP.mp h.1, hQ h.1 s h.2⟩
  | error e s => exact fun hP' => h (hP.mpr hP')

theorem ReturnsIff.ok {P : Prop} {Q : σ → Prop} {r : EStateM.Result ε σ α}
    (h : ReturnsIff P Q r) (hP : P) : ∃ a s, r = .ok a s ∧ Q s := by
  cases r with
  | ok a s => exact ⟨a, s, rfl, h.2⟩
  | error e s => exact absurd hP h

/-- What follows a computation does not throw. -/
theorem ReturnsIff.bind {P : Prop} {Q R : σ → Prop} {x : EStateM ε σ α} {f : α → EStateM ε σ β}
    {s : σ} (hx : ReturnsIff P Q (x s)) (hf : ∀ a s', Q s' → ∃ b s'', f a s' = .ok b s'' ∧ R s'') :
    ReturnsIff P R ((x >>= f) s) := by
  cases h : x s with
  | ok a s' =>
    rw [h] at hx
    obtain ⟨b, s'', hrun, hr⟩ := hf a s' hx.2
    rw [bind_ok h, hrun]
    exact ⟨hx.1, hr⟩
  | error e s' =>
    rw [h] at hx
    rw [bind_error h]
    exact hx

theorem ReturnsIff.returned {P : Prop} {Q : σ → Prop} {r : EStateM.Result ε σ α}
    (h : ReturnsIff P Q r) : returned r = true ↔ P := by
  cases r with
  | ok a s => exact iff_of_true rfl h.1
  | error e s => exact iff_of_false Bool.false_ne_true h

/-! ### Predicates of the state that every outcome keeps -/

/-- Whatever `x` does, it leads from a state with `P` to a state with `P`. -/
def Keeps (P : σ → Prop) (x : EStateM ε σ α) : Prop := ∀ s, P s → P (stateOf (x s))

section Keeps
variable {P : σ → Prop}

theorem keeps_pure (a : α) : Keeps P (pure a : EStateM ε σ α) := fun _ h => h

theorem keeps_throw (e : ε) : Keeps P (throw e : EStateM ε σ α) := fun _ h => h

theorem keeps_get : Keeps P (get : EStateM ε σ σ) := fun _ h => h

theorem keeps_modify {g : σ → σ} (hg : ∀ s, P s → P (g s)) :
    Keeps P (modify g : EStateM ε σ PUnit) := fun s h => hg s h

theorem keeps_fromExcept (r : Except ε α) : Keeps P (fromExcept r : EStateM ε σ α) := by
  cases r with
  | ok a => exact keeps_pure a
  | error e => exact keeps_throw e

theorem keeps_bind {x : EStateM ε σ α} {f : α → EStateM ε σ β} (hx : Keeps P x)
    (hf : ∀ a, Keeps P (f a)) : Keeps P (x >>= f) := by
  intro s hs
  have hxs := hx s hs
  cases h : x s with
  | ok a t =>
    rw [bind_ok h]
    rw [h] at hxs
    exact hf a t hxs
  | error e t =>
    rw [bind_error h]
    rw [h] at hxs
    exact hxs

end Keeps

end Foundation
