import Mathlib.Algebra.BigOperators.Group.List.Basic

/-! Greedy packing.

A list is cut into packs from the front: an element joins the last pack as long as
it fits. Nothing is lost (`pack_flatten`), every pack is one that grew by fitting
elements (`pack_forall`), and where any two elements fit together there are about
half as many packs as elements (`pack_length_le`), so that packing the packs'
representatives again and again comes to an end. -/
namespace Foundation

variable {α β : Type} (fits : List α → α → Bool)

/-- The pack that grows from one begun, and what is left. -/
def fill : List α → List α → List α × List α
  | pack, [] => (pack, [])
  | pack, a :: rest => if fits pack a then fill (pack ++ [a]) rest else (pack, a :: rest)

/-- The packs, the first one begun. -/
def packFrom : List α → List α → List (List α)
  | pack, [] => [pack]
  | pack, a :: rest =>
    if fits pack a then packFrom (pack ++ [a]) rest else pack :: packFrom [a] rest

def pack : List α → List (List α)
  | [] => []
  | a :: rest => packFrom fits [a] rest

variable {fits}

theorem fill_append (p l : List α) : (fill fits p l).1 ++ (fill fits p l).2 = p ++ l := by
  induction l generalizing p with
  | nil => rfl
  | cons a rest ih =>
    rw [fill]
    split
    · rw [ih, List.append_assoc, List.singleton_append]
    · rfl

theorem fill_length_le (p l : List α) : p.length ≤ (fill fits p l).1.length := by
  induction l generalizing p with
  | nil => exact Nat.le_refl _
  | cons a rest ih =>
    rw [fill]
    split
    · refine Nat.le_trans ?_ (ih (p ++ [a]))
      rw [List.length_append]
      exact Nat.le_add_right _ _
    · exact Nat.le_refl _

/-- The first pack, and the packs of what it leaves. -/
theorem packFrom_eq (p l : List α) :
    packFrom fits p l = (fill fits p l).1 :: pack fits (fill fits p l).2 := by
  induction l generalizing p with
  | nil => rfl
  | cons a rest ih =>
    rw [packFrom, fill]
    split
    · exact ih _
    · rfl

theorem pack_cons (a : α) (l : List α) :
    pack fits (a :: l) = (fill fits [a] l).1 :: pack fits (fill fits [a] l).2 := packFrom_eq [a] l

theorem packFrom_flatten (p l : List α) : (packFrom fits p l).flatten = p ++ l := by
  induction l generalizing p with
  | nil => rw [packFrom, List.flatten_cons, List.flatten_nil]
  | cons a rest ih =>
    rw [packFrom]
    split
    · rw [ih, List.append_assoc, List.singleton_append]
    · rw [List.flatten_cons, ih, List.singleton_append]

theorem pack_flatten (l : List α) : (pack fits l).flatten = l := by
  cases l with
  | nil => rfl
  | cons a rest => rw [pack, packFrom_flatten, List.singleton_append]

theorem pack_ne_nil {l : List α} (hl : l ≠ []) : pack fits l ≠ [] := by
  cases l with
  | nil => exact absurd rfl hl
  | cons a rest =>
    rw [pack_cons]
    exact List.cons_ne_nil _ _

/-- What one element has alone and growing by a fitting one keeps, every pack has. -/
theorem packFrom_forall {P : List α → Prop} (hone : ∀ a, P [a])
    (hgrow : ∀ p a, p ≠ [] → P p → fits p a = true → P (p ++ [a])) :
    ∀ (p l : List α), p ≠ [] → P p → ∀ q ∈ packFrom fits p l, P q := by
  intro p l
  induction l generalizing p with
  | nil =>
    intro _ hp q hq
    rw [List.mem_singleton.mp hq]
    exact hp
  | cons a rest ih =>
    intro hne hp q hq
    rw [packFrom] at hq
    split at hq
    · next hfits => exact ih _ (by simp) (hgrow p a hne hp hfits) q hq
    · rcases List.mem_cons.mp hq with rfl | hq
      · exact hp
      · exact ih [a] (List.cons_ne_nil _ _) (hone a) q hq

theorem pack_forall {P : List α → Prop} (hone : ∀ a, P [a])
    (hgrow : ∀ p a, p ≠ [] → P p → fits p a = true → P (p ++ [a])) (l : List α) :
    ∀ q ∈ pack fits l, P q := by
  cases l with
  | nil => exact fun q hq => absurd hq List.not_mem_nil
  | cons a rest => exact packFrom_forall hone hgrow [a] rest (List.cons_ne_nil _ _) (hone a)

theorem pack_mem_ne_nil (l : List α) : ∀ q ∈ pack fits l, q ≠ [] :=
  pack_forall (fun a => List.cons_ne_nil a []) (fun _ _ _ _ _ => by simp) l

/-- Where any two fit together, a pack that leaves something has two. -/
theorem fill_two {a : α} {l : List α} (htwo : ∀ b, fits [a] b = true)
    (hrest : (fill fits [a] l).2 ≠ []) : 2 ≤ (fill fits [a] l).1.length := by
  cases l with
  | nil => exact absurd rfl hrest
  | cons b rest =>
    rw [fill, if_pos (htwo b)]
    exact fill_length_le [a, b] rest

/-- Where any two fit together, at most one pack has less than two. -/
theorem pack_length_le (htwo : ∀ a b, fits [a] b = true) : ∀ n (l : List α), l.length ≤ n →
    2 * (pack fits l).length ≤ l.length + 1
  | _, [], _ => Nat.zero_le _
  | n + 1, a :: l, hn => by
    have hlength : ((fill fits [a] l).1 ++ (fill fits [a] l).2).length = ([a] ++ l).length :=
      congrArg List.length (fill_append [a] l)
    rw [List.length_append, List.singleton_append, List.length_cons] at hlength
    rw [pack_cons, List.length_cons]
    by_cases hrest : (fill fits [a] l).2 = []
    · rw [hrest, List.length_cons]
      show 2 * 1 ≤ _
      omega
    · have hfirst := fill_two (htwo a) hrest
      have hpacks := pack_length_le htwo n (fill fits [a] l).2 (by
        rw [List.length_cons] at hn
        omega)
      rw [List.length_cons]
      omega

/-- Packs of bounded length are many. -/
theorem length_le_of_mem_pack {l q : List α} (hq : q ∈ pack fits l) : q.length ≤ l.length := by
  have hsub := (List.sublist_flatten_of_mem hq).length_le
  rwa [pack_flatten] at hsub

/-- No part is empty, so there are no more parts than members. -/
theorem pack_length_le_length (l : List α) : (pack fits l).length ≤ l.length := by
  have hone : ∀ n ∈ (pack fits l).map List.length, 1 ≤ n := by
    intro n hn
    obtain ⟨q, hq, rfl⟩ := List.mem_map.mp hn
    exact List.length_pos_iff.mpr (pack_mem_ne_nil l q hq)
  have hle := List.length_le_sum_of_one_le _ hone
  rwa [List.length_map, ← List.length_flatten, pack_flatten] at hle

theorem length_le_of_pack {n : Nat} {l : List α} (h : ∀ q ∈ pack fits l, q.length ≤ n) :
    l.length ≤ (pack fits l).length * n := by
  have hsum : ∀ ps : List (List α), (∀ q ∈ ps, q.length ≤ n) →
      ps.flatten.length ≤ ps.length * n := by
    intro ps hps
    induction ps with
    | nil => exact Nat.zero_le _
    | cons p ps ih =>
      have hp := hps p List.mem_cons_self
      have hrest := ih fun q hq => hps q (List.mem_cons_of_mem _ hq)
      rw [List.flatten_cons, List.length_append, List.length_cons, Nat.succ_mul]
      omega
  have hlength := hsum _ h
  rwa [pack_flatten] at hlength

/-- A pack takes as many as fit. -/
theorem fill_length_ge {n : Nat} (p l : List α) (hn : n ≤ p.length + l.length)
    (hfits : ∀ q a, q.length < n → p <+: q → q ++ [a] <+: p ++ l → fits q a = true) :
    n ≤ (fill fits p l).1.length := by
  induction l generalizing p with
  | nil => exact hn
  | cons a rest ih =>
    by_cases hlt : p.length < n
    · have hnow := hfits p a hlt (List.prefix_refl _) ⟨rest, by simp⟩
      rw [fill, if_pos hnow]
      refine ih (p ++ [a]) ?_ fun q b hq hpq hqb => hfits q b hq ?_ ?_
      · rw [List.length_append, List.length_singleton]
        rw [List.length_cons] at hn
        omega
      · exact (List.prefix_append p [a]).trans hpq
      · rwa [List.append_assoc, List.singleton_append] at hqb
    · exact Nat.le_trans (Nat.not_lt.mp hlt) (fill_length_le p (a :: rest))

/-- Packing by what a map shows. -/
theorem packFrom_map {f : α → β} {fits' : List β → β → Bool}
    (h : ∀ p a, fits p a = fits' (p.map f) (f a)) (p l : List α) :
    (packFrom fits p l).map (List.map f) = packFrom fits' (p.map f) (l.map f) := by
  induction l generalizing p with
  | nil => rfl
  | cons a rest ih =>
    rw [packFrom, List.map_cons, packFrom, h p a]
    split
    · rw [ih, List.map_append]
      rfl
    · rw [List.map_cons, ih]
      rfl

theorem pack_map {f : α → β} {fits' : List β → β → Bool}
    (h : ∀ p a, fits p a = fits' (p.map f) (f a)) (l : List α) :
    (pack fits l).map (List.map f) = pack fits' (l.map f) := by
  cases l with
  | nil => rfl
  | cons a rest => exact packFrom_map h [a] rest

end Foundation
