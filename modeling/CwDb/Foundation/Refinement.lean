import CwDb.Foundation.Outcome

/-! Runs of calls of code that may throw.

An observer who sees the calls and answers of a run may keep an account of the
state; `runCalls_observe` carries an invariant of both through the run.

A `Spec` is an abstract machine. It says for each call when it is allowed, what it answers and what it makes
of the abstract state. Code simulates it along a relation when an allowed call, made
in a related state, returns with the answer and related states; then so does every
run of allowed calls (`Simulates.run`).

Two codes agree on a call when they answer or throw the same and leave related states
(`Agree`). -/
namespace Foundation

variable {ε σ τ ι α β : Type}

/-- The calls of a run, one after the other, with their answers. -/
def runCalls (step : ι → EStateM ε σ β) : List ι → EStateM ε σ (List β)
  | [] => return []
  | c :: cs => do
    let answer ← step c
    let answers ← runCalls step cs
    return answer :: answers

/-- What an observer makes of a run who goes by the calls and their answers. -/
def observe (next : ι → β → α → α) : List ι → List β → α → α
  | c :: cs, b :: bs, a => observe next cs bs (next c b a)
  | _, _, a => a

/-- What holds of the observer's account and the state, and is kept by every call
that returns, holds after a run. -/
theorem runCalls_observe {step : ι → EStateM ε σ β} {next : ι → β → α → α} {I : α → σ → Prop}
    {calls : List ι} (hstep : ∀ c ∈ calls, ∀ a s b t, I a s → step c s = .ok b t →
      I (next c b a) t) :
    ∀ {a s bs t}, I a s → runCalls step calls s = .ok bs t → I (observe next calls bs a) t := by
  induction calls with
  | nil =>
    intro a s bs t hI hrun
    rw [runCalls, pure_apply] at hrun
    cases hrun
    exact hI
  | cons c cs ih =>
    intro a s bs t hI hrun
    obtain ⟨b, u, hc, hrun⟩ := bind_eq_ok.mp hrun
    obtain ⟨bs', v, hcs, hpure⟩ := bind_eq_ok.mp hrun
    rw [pure_apply] at hpure
    cases hpure
    exact ih (fun c' hc' => hstep c' (List.mem_cons_of_mem _ hc'))
      (hstep c List.mem_cons_self a s b u hI hc) hcs

/-! ### Against an abstract machine -/

structure Spec (ι α β : Type) where
  Allowed : ι → α → Prop
  after : ι → α → α
  answer : ι → α → β

namespace Spec
variable (spec : Spec ι α β)

/-- Each call of the run is allowed in the state the ones before it lead to. -/
def AllowedRun : List ι → α → Prop
  | [], _ => True
  | c :: cs, a => spec.Allowed c a ∧ AllowedRun cs (spec.after c a)

def afterRun : List ι → α → α
  | [], a => a
  | c :: cs, a => afterRun cs (spec.after c a)

def answers : List ι → α → List β
  | [], _ => []
  | c :: cs, a => spec.answer c a :: answers cs (spec.after c a)

variable {spec} in
/-- A run is known to be allowed call by call. -/
theorem allowedRun_of {calls : List ι} {a : α} (h : ∀ n c, calls[n]? = some c →
    spec.Allowed c (spec.afterRun (calls.take n) a)) : spec.AllowedRun calls a := by
  induction calls generalizing a with
  | nil => exact trivial
  | cons c cs ih => exact ⟨h 0 c rfl, ih fun n c' hc' => h (n + 1) c' hc'⟩

end Spec

/-- One allowed call of the code does what the abstract machine does. -/
def Simulates (R : α → σ → Prop) (step : ι → EStateM ε σ β) (spec : Spec ι α β) : Prop :=
  ∀ c a s, R a s → spec.Allowed c a →
    ∃ t, step c s = .ok (spec.answer c a) t ∧ R (spec.after c a) t

/-- And so does every run. -/
theorem Simulates.run {R : α → σ → Prop} {step : ι → EStateM ε σ β} {spec : Spec ι α β}
    (h : Simulates R step spec) (calls : List ι) :
    ∀ a s, R a s → spec.AllowedRun calls a →
      ∃ t, runCalls step calls s = .ok (spec.answers calls a) t ∧ R (spec.afterRun calls a) t := by
  induction calls with
  | nil =>
    intro a s hR _
    exact ⟨s, rfl, hR⟩
  | cons c cs ih =>
    intro a s hR hallowed
    obtain ⟨t, hstep, ht⟩ := h c a s hR hallowed.1
    obtain ⟨u, hrun, hu⟩ := ih _ t ht hallowed.2
    refine ⟨u, ?_, hu⟩
    rw [runCalls, bind_ok hstep, bind_ok hrun, pure_apply]
    rfl

/-! ### Exceptions as answers -/

section Attempts
variable {γ : Type}

/-- A throw is an answer as well. -/
def attempt (x : EStateM ε σ γ) : EStateM ε σ (Except ε γ) := fun s =>
  match x s with
  | .ok a t => .ok (.ok a) t
  | .error e t => .ok (.error e) t

theorem attempt_ok {x : EStateM ε σ γ} {s t : σ} {a : γ} (h : x s = .ok a t) :
    attempt x s = .ok (.ok a) t := by
  rw [attempt, h]

theorem attempt_error {x : EStateM ε σ γ} {s t : σ} {e : ε} (h : x s = .error e t) :
    attempt x s = .ok (.error e) t := by
  rw [attempt, h]

/-- What a computation answered or threw. -/
def outcomeOf : EStateM.Result ε σ γ → Except ε γ
  | .ok a _ => .ok a
  | .error e _ => .error e

theorem attempt_apply (x : EStateM ε σ γ) (s : σ) :
    attempt x s = .ok (outcomeOf (x s)) (stateOf (x s)) := by
  unfold attempt
  cases x s with
  | ok a t => rfl
  | error e t => rfl

/-- A pure last step leaves the state. -/
theorem stateOf_bind_pure {δ : Type} (x : EStateM ε σ γ) (f : γ → δ) (s : σ) :
    stateOf ((x >>= fun a => pure (f a)) s) = stateOf (x s) := by
  cases h : x s with
  | ok a t => rw [bind_ok h, pure_apply, stateOf_ok, stateOf_ok]
  | error e t => rw [bind_error h, stateOf_error, stateOf_error]

end Attempts

/-! ### Two codes side by side -/

/-- The same answer or the same throw, and related states. -/
structure Agree (R : σ → τ → Prop) (r : EStateM.Result ε σ α) (r' : EStateM.Result ε τ α) :
    Prop where
  outcome : outcomeOf r = outcomeOf r'
  state : R (stateOf r) (stateOf r')

section Agreement
variable {R Q : σ → τ → Prop} {x : EStateM ε σ α} {y : EStateM ε τ α} {f : α → EStateM ε σ β}
  {g : α → EStateM ε τ β} {s : σ} {t : τ}

theorem Agree.ok (a : α) (h : R s t) :
    Agree R (.ok a s : EStateM.Result ε σ α) (.ok a t) := ⟨rfl, h⟩

theorem Agree.error (e : ε) (h : R s t) :
    Agree R (.error e s : EStateM.Result ε σ α) (.error e t) := ⟨rfl, h⟩

/-- Where the first returned, so did the second. -/
theorem Agree.to_ok {r : EStateM.Result ε τ α} {a : α} (h : Agree R (.ok a s) r) :
    ∃ t', r = .ok a t' ∧ R s t' := by
  obtain ⟨houtcome, hstate⟩ := h
  cases r with
  | ok b t' =>
    cases houtcome
    exact ⟨t', rfl, hstate⟩
  | error e t' => cases houtcome

/-- Where the second returned, so did the first. -/
theorem Agree.of_ok {r : EStateM.Result ε σ α} {a : α} (h : Agree R r (.ok a t)) :
    ∃ s', r = .ok a s' ∧ R s' t := by
  obtain ⟨houtcome, hstate⟩ := h
  cases r with
  | ok b s' =>
    cases houtcome
    exact ⟨s', rfl, hstate⟩
  | error e s' => cases houtcome

theorem Agree.of_error {r : EStateM.Result ε σ α} {e : ε} (h : Agree R r (.error e t)) :
    ∃ s', r = .error e s' ∧ R s' t := by
  obtain ⟨houtcome, hstate⟩ := h
  cases r with
  | ok b s' => cases houtcome
  | error e' s' =>
    cases houtcome
    exact ⟨s', rfl, hstate⟩

/-- A sequence, whose second parts agree where the first ones returned. -/
theorem Agree.bind (h : Agree R (x s) (y t)) (hfg : ∀ a s' t', y t = .ok a t' → R s' t' →
    Agree R (f a s') (g a t')) : Agree R ((x >>= f) s) ((y >>= g) t) := by
  cases hy : y t with
  | ok a t' =>
    rw [hy] at h
    obtain ⟨s', hx, hR⟩ := h.of_ok
    rw [bind_ok hx, bind_ok hy]
    exact hfg a s' t' hy hR
  | error e t' =>
    rw [hy] at h
    obtain ⟨s', hx, hR⟩ := h.of_error
    rw [bind_error hx, bind_error hy]
    exact .error e hR

theorem agree_fromExcept (z : Except ε α) (h : R s t) :
    Agree R ((fromExcept z : EStateM ε σ α) s) ((fromExcept z : EStateM ε τ α) t) := by
  cases z with
  | ok a => exact .ok a h
  | error e => exact .error e h

end Agreement

end Foundation
