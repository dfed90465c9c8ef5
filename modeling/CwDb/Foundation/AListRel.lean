import Mathlib.Data.List.AList

/-! Association lists of the same keys with related values. -/
namespace Foundation

variable {κ β γ : Type} {P : β → γ → Prop}

/-- Where one value is known, so is the other. -/
theorem rel_some {x : Option β} {c : γ} (h : Option.Rel P x (some c)) : ∃ b, x = some b ∧ P b c := by
  cases h with
  | some hbc => exact ⟨_, rfl, hbc⟩

theorem rel_none {x : Option β} (h : Option.Rel P x (none : Option γ)) : x = none := by
  cases h with
  | none => rfl

theorem rel_isSome {x : Option β} {y : Option γ} (h : Option.Rel P x y) : x.isSome = y.isSome := by
  cases h with
  | some _ => rfl
  | none => rfl

section Lists
variable [DecidableEq κ]

/-- What is known stays known when another value is put. -/
theorem isSome_lookup_insert {m : AList fun _ : κ => β} {k : κ} (h : (m.lookup k).isSome = true)
    (k' : κ) (v : β) : ((m.insert k' v).lookup k).isSome = true := by
  by_cases hk : k = k'
  · subst hk
    rw [AList.lookup_insert]
    rfl
  · rwa [AList.lookup_insert_ne hk]

structure AListRel (P : β → γ → Prop) (a : AList fun _ : κ => β) (b : AList fun _ : κ => γ) : Prop where
  keys : a.keys = b.keys
  lookup : ∀ k, Option.Rel P (a.lookup k) (b.lookup k)

namespace AListRel
variable {a : AList fun _ : κ => β} {b : AList fun _ : κ => γ}

theorem empty : AListRel P (∅ : AList fun _ : κ => β) (∅ : AList fun _ : κ => γ) :=
  ⟨rfl, fun _ => .none⟩

theorem insert (h : AListRel P a b) (k : κ) {x : β} {y : γ} (hxy : P x y) :
    AListRel P (a.insert k x) (b.insert k y) where
  keys := by rw [AList.keys_insert, AList.keys_insert, h.keys]
  lookup k' := by
    by_cases hk : k' = k
    · rw [hk, AList.lookup_insert, AList.lookup_insert]
      exact .some hxy
    · rw [AList.lookup_insert_ne hk, AList.lookup_insert_ne hk]
      exact h.lookup k'

theorem erase (h : AListRel P a b) (k : κ) : AListRel P (a.erase k) (b.erase k) where
  keys := by rw [AList.keys_erase, AList.keys_erase, h.keys]
  lookup k' := by
    by_cases hk : k' = k
    · rw [hk, AList.lookup_erase, AList.lookup_erase]
      exact .none
    · rw [AList.lookup_erase_ne hk, AList.lookup_erase_ne hk]
      exact h.lookup k'

/-- A value that may be missing, with something in its place then. -/
theorem getD (h : AListRel P a b) (k : κ) {x : β} {y : γ} (hxy : P x y) :
    P ((a.lookup k).getD x) ((b.lookup k).getD y) := by
  have hk := h.lookup k
  cases hb : b.lookup k with
  | none =>
    rw [hb] at hk
    rwa [rel_none hk]
  | some y' =>
    rw [hb] at hk
    obtain ⟨x', hx', hxy'⟩ := rel_some hk
    rwa [hx']

end AListRel
end Lists
end Foundation
