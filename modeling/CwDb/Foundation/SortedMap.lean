import Mathlib.Data.List.Perm.Basic
import Mathlib.Order.Lattice

/-! Finite maps as lists sorted by their keys.

A map is a list of pairs whose keys strictly increase (`SortedKeys`), so a key
occurs once and a list is determined by its members (`SortedKeys.ext`). Insertion,
removal and the suffixes from and after a key are filters by the order, which
makes membership in each of them one line. -/
namespace Foundation

variable {κ β : Type} [LinearOrder κ]

/-- Keys strictly increase. -/
def SortedKeys (l : List (κ × β)) : Prop := l.Pairwise fun a b => a.1 < b.1

instance (l : List (κ × β)) : Decidable (SortedKeys l) :=
  inferInstanceAs (Decidable (l.Pairwise fun a b => a.1 < b.1))

/-- The pair between the smaller keys and the larger ones; a pair of the same key
is dropped. -/
def insertEntry (k : κ) (v : β) (l : List (κ × β)) : List (κ × β) :=
  l.filter (fun e => e.1 < k) ++ (k, v) :: l.filter (fun e => k < e.1)

def eraseKey (k : κ) (l : List (κ × β)) : List (κ × β) := l.filter fun e => e.1 ≠ k

/-- The suffix from a key on. -/
def fromKey (k : κ) (l : List (κ × β)) : List (κ × β) := l.filter fun e => k ≤ e.1

/-- The suffix after a key. -/
def afterKey (k : κ) (l : List (κ × β)) : List (κ × β) := l.filter fun e => k < e.1

/-- The value at a key. -/
def lookupKey (k : κ) (l : List (κ × β)) : Option β :=
  (l.find? fun e => e.1 = k).map Prod.snd

theorem sortedKeys_nil : SortedKeys ([] : List (κ × β)) := List.Pairwise.nil

namespace SortedKeys
variable {l l₁ l₂ : List (κ × β)}

theorem filter (h : SortedKeys l) (p : κ × β → Bool) : SortedKeys (l.filter p) :=
  List.Pairwise.filter p h

theorem insertEntry (h : SortedKeys l) (k : κ) (v : β) : SortedKeys (insertEntry k v l) := by
  refine List.pairwise_append.mpr ⟨h.filter _, List.pairwise_cons.mpr ⟨?_, h.filter _⟩, ?_⟩
  · intro b hb
    simpa using (List.mem_filter.mp hb).2
  · intro a ha b hb
    have hak : a.1 < k := by simpa using (List.mem_filter.mp ha).2
    rcases List.mem_cons.mp hb with rfl | hb
    · exact hak
    · exact hak.trans (by simpa using (List.mem_filter.mp hb).2)

theorem eraseKey (h : SortedKeys l) (k : κ) : SortedKeys (eraseKey k l) := h.filter _

theorem fromKey (h : SortedKeys l) (k : κ) : SortedKeys (fromKey k l) := h.filter _

theorem nodup (h : SortedKeys l) : l.Nodup :=
  List.Pairwise.imp (fun hab heq => absurd (heq ▸ hab) (lt_irrefl _)) h

/-- A key has one value. -/
theorem eq_of_key (h : SortedKeys l) {a b : κ × β} (ha : a ∈ l) (hb : b ∈ l) (hk : a.1 = b.1) :
    a = b := by
  induction l with
  | nil => cases ha
  | cons x xs ih =>
    obtain ⟨hx, hxs⟩ := List.pairwise_cons.mp h
    rcases List.mem_cons.mp ha with hax | ha
    · rcases List.mem_cons.mp hb with hbx | hb
      · rw [hax, hbx]
      · exact absurd (hax ▸ hk) (hx b hb).ne
    · rcases List.mem_cons.mp hb with hbx | hb
      · exact absurd (hbx ▸ hk).symm (hx a ha).ne
      · exact ih hxs ha hb

/-- Two sorted lists of the same members are one. -/
theorem ext (h₁ : SortedKeys l₁) (h₂ : SortedKeys l₂) (h : ∀ e, e ∈ l₁ ↔ e ∈ l₂) : l₁ = l₂ :=
  List.Perm.eq_of_pairwise (fun _ _ _ _ hab hba => absurd hab (not_lt.mpr hba.le)) h₁ h₂
    ((List.perm_ext_iff_of_nodup h₁.nodup h₂.nodup).mpr h)

end SortedKeys

section Members
variable {l : List (κ × β)} {k : κ} {v : β} {e : κ × β}

@[simp] theorem mem_eraseKey : e ∈ eraseKey k l ↔ e ∈ l ∧ e.1 ≠ k := by
  simp [eraseKey]

@[simp] theorem mem_fromKey : e ∈ fromKey k l ↔ e ∈ l ∧ k ≤ e.1 := by
  simp [fromKey]

@[simp] theorem mem_afterKey : e ∈ afterKey k l ↔ e ∈ l ∧ k < e.1 := by
  simp [afterKey]

/-- An inserted pair takes the place of one of the same key. -/
theorem mem_insertEntry : e ∈ insertEntry k v l ↔ e = (k, v) ∨ e ∈ l ∧ e.1 ≠ k := by
  simp only [insertEntry, List.mem_append, List.mem_cons, List.mem_filter, decide_eq_true_eq]
  constructor
  · rintro (⟨he, hlt⟩ | rfl | ⟨he, hlt⟩)
    · exact .inr ⟨he, hlt.ne⟩
    · exact .inl rfl
    · exact .inr ⟨he, hlt.ne'⟩
  · rintro (rfl | ⟨he, hne⟩)
    · exact .inr (.inl rfl)
    · rcases lt_or_gt_of_ne hne with hlt | hlt
      · exact .inl ⟨he, hlt⟩
      · exact .inr (.inr ⟨he, hlt⟩)

theorem mem_insertEntry_of_absent (h : ∀ e ∈ l, e.1 ≠ k) :
    e ∈ insertEntry k v l ↔ e = (k, v) ∨ e ∈ l := by
  rw [mem_insertEntry]
  constructor
  · rintro (he | ⟨he, -⟩)
    · exact .inl he
    · exact .inr he
  · rintro (he | he)
    · exact .inl he
    · exact .inr ⟨he, h e he⟩

theorem lookupKey_eq_some (h : SortedKeys l) : lookupKey k l = some v ↔ (k, v) ∈ l := by
  rw [lookupKey, Option.map_eq_some_iff]
  constructor
  · rintro ⟨a, ha, rfl⟩
    have hk : a.1 = k := by simpa using List.find?_some ha
    rw [← hk]
    exact List.mem_of_find?_eq_some ha
  · intro hmem
    cases hf : l.find? fun e => e.1 = k with
    | none => simpa using List.find?_eq_none.mp hf _ hmem
    | some a =>
      have hk : a.1 = k := by simpa using List.find?_some hf
      exact ⟨a, rfl, by rw [h.eq_of_key (List.mem_of_find?_eq_some hf) hmem hk]⟩

theorem lookupKey_eq_none : lookupKey k l = none ↔ ∀ e ∈ l, e.1 ≠ k := by
  simp [lookupKey, List.find?_eq_none]

/-- A key stands at the head of the suffix from it, or nowhere. -/
theorem lookupKey_eq_head (h : SortedKeys l) :
    lookupKey k l =
      ((fromKey k l).head?.filter fun e => e.1 = k).map Prod.snd := by
  cases hfrom : fromKey k l with
  | nil =>
    have habs : ∀ e ∈ l, e.1 ≠ k := fun e he hek => by
      have : e ∈ fromKey k l := mem_fromKey.mpr ⟨he, hek.ge⟩
      rw [hfrom] at this
      cases this
    rw [lookupKey_eq_none.mpr habs]
    rfl
  | cons e es =>
    have he := mem_fromKey.mp (hfrom ▸ List.mem_cons_self : e ∈ fromKey k l)
    by_cases hek : e.1 = k
    · have hmem : (k, e.2) ∈ l := by rw [← hek]; exact he.1
      rw [(lookupKey_eq_some h).mpr hmem]
      simp [Option.filter, hek]
    · have habs : ∀ x ∈ l, x.1 ≠ k := fun x hx hxk => by
        have hin : x ∈ e :: es := hfrom ▸ mem_fromKey.mpr ⟨hx, hxk.ge⟩
        rcases List.mem_cons.mp hin with rfl | hin
        · exact hek hxk
        · have hlt := (List.pairwise_cons.mp (hfrom ▸ h.fromKey k)).1 x hin
          exact absurd (hlt.trans_eq hxk) (not_lt.mpr he.2)
      rw [lookupKey_eq_none.mpr habs]
      simp [Option.filter, hek]

end Members
end Foundation
