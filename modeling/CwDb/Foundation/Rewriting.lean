import Mathlib.Data.List.Nodup
import Mathlib.Logic.Function.Basic

/-! Cells rewritten one after the other.

A cell may be rewritten when its new content clashes with that of no other cell at
that moment. Whether a run goes through depends on its order in one way only: a cell
must not take what a later one still holds. What the run leaves does not depend on
the order. -/
namespace Foundation

section Rewriting
variable {ι α : Type} [DecidableEq ι] (f : α → Option α) (clash : α → α → Prop)

/-- One cell is rewritten. -/
def Rewrites (cells : ι → Option α) (i : ι) (cells' : ι → Option α) : Prop :=
  ∃ b, (cells i).bind f = some b ∧ (∀ j, j ≠ i → ∀ c, cells j = some c → ¬ clash b c) ∧
    cells' = Function.update cells i (some b)

inductive RewriteRun : (ι → Option α) → List ι → (ι → Option α) → Prop
  | nil (cells : ι → Option α) : RewriteRun cells [] cells
  | cons {cells cells₁ cells' : ι → Option α} {i : ι} {ids : List ι}
      (step : Rewrites f clash cells i cells₁) (rest : RewriteRun cells₁ ids cells') :
      RewriteRun cells (i :: ids) cells'

/-- The cells once those of a list are rewritten. -/
def rewritten (cells : ι → Option α) (ids : List ι) (i : ι) : Option α :=
  if i ∈ ids then (cells i).bind f else cells i

/-- Every cell of the list has a new content, which clashes with that of no other cell
once all are rewritten. -/
structure Settles (cells : ι → Option α) (ids : List ι) : Prop where
  written : ∀ i ∈ ids, ∃ b, (cells i).bind f = some b
  apart : ∀ i ∈ ids, ∀ b, (cells i).bind f = some b → ∀ j, j ≠ i → ∀ c,
    rewritten f cells ids j = some c → ¬ clash b c

/-- No cell takes what one later in the list still holds. -/
def Unobstructed (cells : ι → Option α) (ids : List ι) : Prop :=
  ids.Pairwise fun i j => ∀ b, (cells i).bind f = some b → ∀ c, cells j = some c → ¬ clash b c

variable {f clash} {cells cells' cells'' : ι → Option α} {ids ids' : List ι}

theorem update_later {i j : ι} (hi : i ∉ ids) (hj : j ∈ ids) (x : Option α) :
    Function.update cells i x j = cells j := by
  have hne : j ≠ i := by
    rintro rfl
    exact hi hj
  rw [Function.update_of_ne hne]

theorem rewritten_update {i : ι} (hi : i ∉ ids) {b : α} (hb : (cells i).bind f = some b) :
    rewritten f (Function.update cells i (some b)) ids = rewritten f cells (i :: ids) := by
  funext j
  unfold rewritten
  by_cases hj : j = i
  · subst hj
    rw [if_neg hi, if_pos (List.mem_cons_self ..), Function.update_self, hb]
  · rw [Function.update_of_ne hj]
    simp only [List.mem_cons, hj, false_or]

/-- What a run leaves does not depend on its order. -/
theorem RewriteRun.eq_rewritten (h : RewriteRun f clash cells ids cells') (hnd : ids.Nodup) :
    cells' = rewritten f cells ids := by
  induction h with
  | nil cells =>
    funext i
    unfold rewritten
    rw [if_neg (List.not_mem_nil)]
  | cons step rest ih =>
    obtain ⟨hi, hnd⟩ := List.nodup_cons.mp hnd
    obtain ⟨b, hb, -, rfl⟩ := step
    rw [ih hnd, rewritten_update hi hb]

theorem rewritten_perm (h : ids.Perm ids') : rewritten f cells ids = rewritten f cells ids' := by
  funext i
  unfold rewritten
  rw [if_congr h.mem_iff rfl rfl]

theorem Settles.perm (h : Settles f clash cells ids) (hperm : ids.Perm ids') :
    Settles f clash cells ids' where
  written i hi := h.written i (hperm.mem_iff.mpr hi)
  apart i hi b hb j hj c hc :=
    h.apart i (hperm.mem_iff.mpr hi) b hb j hj c (by rw [rewritten_perm hperm, hc])

theorem Unobstructed.update {i : ι} (hi : i ∉ ids) {x : Option α} :
    Unobstructed f clash (Function.update cells i x) ids ↔ Unobstructed f clash cells ids := by
  have hsame : ∀ j ∈ ids, Function.update cells i x j = cells j := fun j hj =>
    update_later hi hj x
  constructor
  · intro h
    apply List.Pairwise.imp_of_mem _ h
    intro j k hj hk hjk
    rwa [hsame j hj, hsame k hk] at hjk
  · intro h
    apply List.Pairwise.imp_of_mem _ h
    intro j k hj hk hjk
    rwa [hsame j hj, hsame k hk]

/-- The first step is possible, and what follows it settles, where the whole does. -/
theorem settles_cons (hsymm : ∀ a b, clash a b → clash b a) {i : ι} (hi : i ∉ ids) {b : α}
    (hb : (cells i).bind f = some b) : Settles f clash cells (i :: ids) ↔
      Settles f clash (Function.update cells i (some b)) ids ∧
        ∀ j, j ∉ i :: ids → ∀ c, cells j = some c → ¬ clash b c := by
  have hsame : ∀ j ∈ ids, Function.update cells i (some b) j = cells j := fun j hj =>
    update_later hi hj (some b)
  have hself : rewritten f cells (i :: ids) i = some b := by
    unfold rewritten
    rw [if_pos (List.mem_cons_self ..), hb]
  constructor
  · intro h
    refine ⟨⟨?_, ?_⟩, ?_⟩
    · intro j hj
      rw [hsame j hj]
      exact h.written j (List.mem_cons_of_mem i hj)
    · intro j hj b' hb' k hk c hc
      rw [hsame j hj] at hb'
      rw [rewritten_update hi hb] at hc
      exact h.apart j (List.mem_cons_of_mem i hj) b' hb' k hk c hc
    · intro j hj c hc
      have hji : j ≠ i := fun hji => hj (hji ▸ List.mem_cons_self ..)
      refine h.apart i (List.mem_cons_self ..) b hb j hji c ?_
      unfold rewritten
      rw [if_neg hj, hc]
  · rintro ⟨h, hrest⟩
    have hlater : ∀ j ∈ ids, ∀ b', (cells j).bind f = some b' → ∀ k, k ≠ j → ∀ c,
        rewritten f cells (i :: ids) k = some c → ¬ clash b' c := by
      intro j hj b' hb' k hk c hc
      rw [← rewritten_update hi hb] at hc
      exact h.apart j hj b' (by rw [hsame j hj, hb']) k hk c hc
    refine ⟨fun j hj => ?_, fun j hj b' hb' k hk c hc => ?_⟩
    · rcases List.mem_cons.mp hj with rfl | hj
      · exact ⟨b, hb⟩
      · obtain ⟨b', hb'⟩ := h.written j hj
        exact ⟨b', by rwa [hsame j hj] at hb'⟩
    · rcases List.mem_cons.mp hj with rfl | hj
      · rw [hb] at hb'
        injection hb' with hb'
        subst hb'
        by_cases hkin : k ∈ ids
        · -- the other is rewritten later, and then meets this one
          have hc' : (cells k).bind f = some c := by
            rwa [rewritten, if_pos (List.mem_cons_of_mem j hkin)] at hc
          exact fun hclash => hlater k hkin c hc' j (Ne.symm hk) b hself (hsymm b c hclash)
        · have hk' : k ∉ j :: ids := by
            intro h
            rcases List.mem_cons.mp h with h | h
            · exact hk h
            · exact hkin h
          rw [rewritten, if_neg hk'] at hc
          exact hrest k hk' c hc
      · exact hlater j hj b' hb' k hk c hc

/-- A run over different cells goes through exactly where the list settles and no cell
takes what a later one still holds. -/
theorem exists_run_iff (hsymm : ∀ a b, clash a b → clash b a) (hnd : ids.Nodup) :
    (∃ cells', RewriteRun f clash cells ids cells') ↔
      Settles f clash cells ids ∧ Unobstructed f clash cells ids := by
  induction ids generalizing cells with
  | nil =>
    refine iff_of_true ⟨cells, .nil cells⟩ ⟨⟨?_, ?_⟩, List.Pairwise.nil⟩
    · intro i hi
      cases hi
    · intro i hi
      cases hi
  | cons i ids ih =>
    obtain ⟨hi, hnd⟩ := List.nodup_cons.mp hnd
    have hne : ∀ j ∈ ids, j ≠ i := fun j hj h => hi (h ▸ hj)
    constructor
    · rintro ⟨cells', hrun⟩
      cases hrun with
      | cons step rest =>
        obtain ⟨b, hb, hclear, rfl⟩ := step
        obtain ⟨hsettles, hfree⟩ := (ih hnd).mp ⟨cells', rest⟩
        refine ⟨(settles_cons hsymm hi hb).mpr ⟨hsettles, fun j hj => ?_⟩, ?_⟩
        · exact hclear j (fun h => hj (h ▸ List.mem_cons_self ..))
        · refine List.Pairwise.cons (fun j hj b' hb' => ?_) ((Unobstructed.update hi).mp hfree)
          rw [hb] at hb'
          injection hb' with hb'
          subst hb'
          exact hclear j (hne j hj)
    · rintro ⟨hsettles, hfree⟩
      obtain ⟨b, hb⟩ := hsettles.written i (List.mem_cons_self ..)
      obtain ⟨hfirst, hfree⟩ := List.pairwise_cons.mp hfree
      obtain ⟨hlater, hrest⟩ := (settles_cons hsymm hi hb).mp hsettles
      obtain ⟨cells', hrun⟩ := (ih hnd).mpr ⟨hlater, (Unobstructed.update hi).mpr hfree⟩
      refine ⟨cells', .cons ⟨b, hb, fun j hj c hc => ?_, rfl⟩ hrun⟩
      by_cases hin : j ∈ ids
      · exact hfirst j hin b hb c hc
      · refine hrest j ?_ c hc
        simp [hj, hin]

/-- Two orders of the same cells both go through or both do not, unless just one has a
cell take what a later one still holds. -/
theorem exists_run_perm (hsymm : ∀ a b, clash a b → clash b a) (hnd : ids.Nodup)
    (hperm : ids.Perm ids')
    (hfree : Unobstructed f clash cells ids ↔ Unobstructed f clash cells ids') :
    (∃ cells', RewriteRun f clash cells ids cells') ↔
      ∃ cells', RewriteRun f clash cells ids' cells' := by
  rw [exists_run_iff hsymm hnd, exists_run_iff hsymm (hperm.nodup_iff.mp hnd), hfree]
  exact and_congr_left fun _ => ⟨fun h => h.perm hperm, fun h => h.perm hperm.symm⟩

theorem RewriteRun.eq_of_perm (h : RewriteRun f clash cells ids cells')
    (h' : RewriteRun f clash cells ids' cells'') (hnd : ids.Nodup) (hperm : ids.Perm ids') :
    cells' = cells'' := by
  rw [h.eq_rewritten hnd, h'.eq_rewritten (hperm.nodup_iff.mp hnd), rewritten_perm hperm]

end Rewriting
end Foundation
