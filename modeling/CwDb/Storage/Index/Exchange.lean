import CwDb.Storage.Index.Runs
import CwDb.Foundation.Refinement

/-! What an operation does to the row of leaves.

An insertion or an erasure exchanges one leaf, or two neighbours, for up to three others
and leaves the rest of the row alone (`takenLeaves_cases`, `releasedLeaves_cases`). An
erasure makes the row longer only by dealing two leaves out over three, and just then it
allocates a page. -/
namespace CwDb.Storage.DiskBspIndex
open Foundation BPlusTree

variable {ty : DataType} {H : Nat} {n : PageId} {l : Leaf LeafEntry}

/-- What the leaf with a new entry, and a neighbour, are exchanged for. -/
inductive TakeExchange (n : PageId) (l : Leaf LeafEntry) :
    List (Leaf LeafEntry) → List (Leaf LeafEntry) → Prop where
  | fits : Fits (leaf l) → TakeExchange n l [l] [l]
  | halves : ¬ Fits (leaf l) → TakeExchange n l [l] (halves n l)
  | give (b : Leaf LeafEntry) : ¬ Fits (leaf l) → Fits (leaf (givenRight l)) →
    Fits (leaf (gotLeft l b)) → TakeExchange n l [l, b] (giveRight l b)
  | dealRight (b : Leaf LeafEntry) : ¬ Fits (leaf l) → TakeExchange n l [l, b] (dealtLeaves n l b)
  | dealLeft (d : Leaf LeafEntry) : ¬ Fits (leaf l) → TakeExchange n l [d, l] (dealtLeaves n d l)

/-- What the leaf without an entry, and a neighbour, are exchanged for, and how many pages
that takes. -/
inductive ReleaseExchange (n : PageId) (l : Leaf LeafEntry) :
    List (Leaf LeafEntry) → List (Leaf LeafEntry) → Nat → Prop where
  | stays : leafUnderflow l.entries false = false → ReleaseExchange n l [l] [l] 0
  | fromLeft (d : Leaf LeafEntry) : lendsEntry (leaf d) = true →
    ReleaseExchange n l [d, l] (giveRight d l) 0
  | fromRight (d : Leaf LeafEntry) : lendsEntry (leaf d) = true →
    ReleaseExchange n l [l, d] (takeRight l d) 0
  | joinLeft (d : Leaf LeafEntry) : lendsEntry (leaf d) = false → leafUnderflow l.entries false = true →
    ReleaseExchange n l [d, l] (joined n d l) (joinPages d l)
  | joinRight (d : Leaf LeafEntry) : lendsEntry (leaf d) = false → leafUnderflow l.entries false = true →
    ReleaseExchange n l [l, d] (joined n l d) (joinPages l d)

/-- A row of leaves in which some neighbours are exchanged for others. -/
def Exchanged (xs ms row row' : List (Leaf LeafEntry)) : Prop :=
  ∃ before after : List (Leaf LeafEntry),
    row = before ++ xs ++ after ∧ row' = before ++ ms ++ after

theorem exchanged_leavesWith (up : Ctx LeafEntry H 1) {pid : PageId} {ks : List LeafEntry}
    {left right left₀ right₀ : List (BPlusTree LeafEntry 0)} {xs : List (Leaf LeafEntry)}
    (ms : List (Leaf LeafEntry)) (h : left ++ leaf l :: right = left₀ ++ leavesAt xs ++ right₀) :
    Exchanged xs ms ((Ctx.frame pid ks left right up).plug (leaf l)).leaves
      (up.leavesWith left₀ right₀ ms) := by
  refine ⟨up.leavesBefore ++ leavesOf left₀, leavesOf right₀ ++ up.leavesAfter, ?_, ?_⟩
  · rw [Ctx.plug, h, Ctx.leaves_plug_leaves, Ctx.leavesWith]
    simp
  · rw [Ctx.leavesWith]
    simp

theorem takenLeaves_cases (n : PageId) (ctx : Ctx LeafEntry H 0) (l : Leaf LeafEntry) :
    ∃ xs ms, TakeExchange n l xs ms ∧
      Exchanged xs ms (ctx.plug (leaf l)).leaves (takenLeaves n ctx l) := by
  rw [takenLeaves]
  by_cases hfits : Fits (leaf l)
  · rw [if_pos hfits]
    refine ⟨[l], [l], .fits hfits, ctx.leavesBefore, ctx.leavesAfter, ?_, ?_⟩
    · rw [Ctx.leaves_plug, leaves_leaf]
    · rw [Ctx.leaves_plug, leaves_leaf]
  rw [if_neg hfits]
  cases ctx with
  | top =>
    rw [splitLeaves, Ctx.plug, leaves_leaf]
    exact ⟨[l], halves n l, .halves hfits, [], [], rfl, rfl⟩
  | frame pid ks left right up =>
    cases right with
    | nil =>
      rw [splitLeaves]
      rcases List.eq_nil_or_concat left with rfl | ⟨init, d, hleft⟩
      · exact ⟨[l], halves n l, .halves hfits, exchanged_leavesWith up _ rfl⟩
      · rw [List.concat_eq_append] at hleft
        subst hleft
        rw [List.getLast?_concat, List.dropLast_concat]
        exact ⟨[d, l], dealtLeaves n d l, .dealLeft d hfits,
          exchanged_leavesWith up _ (by simp [leavesAt]; rfl)⟩
    | cons b rest =>
      rw [splitLeaves]
      have hfamily : left ++ leaf l :: b :: rest = left ++ leavesAt [l, b] ++ rest := by
        simp [leavesAt]
        rfl
      by_cases hroom : Fits (leaf (givenRight l)) ∧ Fits (leaf (gotLeft l b))
      · rw [if_pos hroom]
        exact ⟨[l, b], giveRight l b, .give b hfits hroom.1 hroom.2, exchanged_leavesWith up _ hfamily⟩
      · rw [if_neg hroom]
        exact ⟨[l, b], dealtLeaves n l b, .dealRight b hfits, exchanged_leavesWith up _ hfamily⟩

/-- The leaf has a neighbour below its parent. -/
def Neighboured : {H : Nat} → Ctx LeafEntry H 0 → Prop
  | _, .top => True
  | _, .frame _ _ left right _ => left ++ right ≠ []

/-- A leaf that was mended has one. -/
theorem Releases.neighboured {slot : Nat} {ctx : Ctx LeafEntry H 0} (h : Releases n slot ctx l)
    (hunder : leafUnderflow l.entries false = true) : Neighboured ctx := by
  cases ctx with
  | top => rw [Neighboured]; trivial
  | frame pid ks left right up =>
    rw [Releases, if_pos hunder, LeafMends] at h
    rw [Neighboured]
    intro hnone
    obtain ⟨rfl, rfl⟩ := List.append_eq_nil_iff.mp hnone
    exact h

/-- The only leaf stays as it is; otherwise leaves are exchanged. -/
theorem releasedLeaves_cases (n : PageId) (ctx : Ctx LeafEntry H 0)
    (h : leafUnderflow l.entries false = true → Neighboured ctx) :
    ((ctx.plug (leaf l)).leaves = [l] ∧ releasedLeaves n ctx l = [l] ∧ releasedPages ctx l = 0) ∨
      ∃ xs ms, ReleaseExchange n l xs ms (releasedPages ctx l) ∧
        Exchanged xs ms (ctx.plug (leaf l)).leaves (releasedLeaves n ctx l) := by
  cases ctx with
  | top =>
    have hsingle : ((Ctx.top : Ctx LeafEntry 0 0).plug (leaf l)).leaves = [l] := by
      rw [Ctx.plug, leaves_leaf]
    exact .inl ⟨hsingle, releases_single hsingle⟩
  | frame pid ks left right up =>
    rw [releasedLeaves, releasedPages]
    refine .inr ?_
    by_cases hunder : leafUnderflow l.entries false = true
    swap
    · rw [if_neg hunder, if_neg hunder]
      refine ⟨[l], [l], .stays ((Bool.not_eq_true _).mp hunder),
        (Ctx.frame pid ks left right up).leavesBefore, (Ctx.frame pid ks left right up).leavesAfter, ?_, ?_⟩
      · rw [Ctx.leaves_plug, leaves_leaf]
      · rw [Ctx.leaves_plug, leaves_leaf]
    have hneighbour := h hunder
    rw [Neighboured] at hneighbour
    rw [if_pos hunder, if_pos hunder, mendedLeaves, redealtPages]
    rcases List.eq_nil_or_concat left with rfl | ⟨init, d, hleft⟩
    · cases right with
      | nil => exact absurd rfl hneighbour
      | cons r rest =>
        rw [remedy_nil]
        by_cases hr : lendsEntry r = true
        · rw [if_pos hr]
          exact ⟨[l, r], takeRight l r, .fromRight r hr, exchanged_leavesWith up _ rfl⟩
        · rw [if_neg hr]
          exact ⟨[l, r], joined n l r, .joinRight r ((Bool.not_eq_true _).mp hr) hunder,
            exchanged_leavesWith up _ rfl⟩
    · rw [List.concat_eq_append] at hleft
      subst hleft
      have hfamily : init ++ [d] ++ leaf l :: right = init ++ leavesAt [d, l] ++ right := by
        simp [leavesAt]
        rfl
      by_cases hd : lendsEntry d = true
      · rw [remedy_fromLeft hd]
        exact ⟨[d, l], giveRight d l, .fromLeft d hd, exchanged_leavesWith up _ hfamily⟩
      · have hd' : lendsEntry d = false := (Bool.not_eq_true _).mp hd
        by_cases hr : ∀ r ∈ right.head?, lendsEntry r = false
        · rw [remedy_joinLeft hd' hr]
          exact ⟨[d, l], joined n d l, .joinLeft d hd' hunder, exchanged_leavesWith up _ hfamily⟩
        · cases right with
          | nil => exact absurd (by simp) hr
          | cons r rest =>
            have hr' : lendsEntry r = true := by simpa using hr
            rw [remedy_fromRight_left hd' hr']
            refine ⟨[l, r], takeRight l r, .fromRight r hr', exchanged_leavesWith up _ ?_⟩
            simp [leavesAt]
            rfl

/-! ### The entries stay the same -/

section Entries
variable {xs ms row row' : List (Leaf LeafEntry)} {pages : Nat}

theorem dealtLeaves_entries (n : PageId) (a b : Leaf LeafEntry) :
    ((dealtLeaves n a b).flatMap Leaf.entries).Perm ([a, b].flatMap Leaf.entries) := by
  rw [dealtLeaves, dealOver_entries]
  refine (sortedRun_perm _).trans (List.Perm.of_eq ?_)
  simp

theorem takeRight_entries (a b : Leaf LeafEntry) :
    (takeRight a b).flatMap Leaf.entries = [a, b].flatMap Leaf.entries := by
  cases hb : b.entries with
  | nil => simp [takeRight, hb]
  | cons e es => simp [takeRight, hb]

theorem joined_entries (n : PageId) (a b : Leaf LeafEntry) :
    (joined n a b).flatMap Leaf.entries = [a, b].flatMap Leaf.entries := by
  rw [joined]
  by_cases hfits : Fits (leaf (mergedLeaf a b))
  · rw [if_pos hfits]
    simp [mergedLeaf]
  · rw [if_neg hfits, dealOver_entries]
    simp

theorem TakeExchange.entries (h : TakeExchange n l xs ms) :
    (ms.flatMap Leaf.entries).Perm (xs.flatMap Leaf.entries) := by
  cases h with
  | fits => exact .refl _
  | halves => exact .of_eq (halves_entries n l)
  | give b => exact .of_eq (giveRight_entries l b)
  | dealRight b => exact dealtLeaves_entries n l b
  | dealLeft d => exact dealtLeaves_entries n d l

theorem ReleaseExchange.entries (h : ReleaseExchange n l xs ms pages) :
    ms.flatMap Leaf.entries = xs.flatMap Leaf.entries := by
  cases h with
  | stays => rfl
  | fromLeft d => exact giveRight_entries d l
  | fromRight d => exact takeRight_entries l d
  | joinLeft d => exact joined_entries n d l
  | joinRight d => exact joined_entries n l d

theorem Exchanged.entries (h : Exchanged xs ms row row')
    (hperm : (ms.flatMap Leaf.entries).Perm (xs.flatMap Leaf.entries)) :
    (row'.flatMap Leaf.entries).Perm (row.flatMap Leaf.entries) := by
  obtain ⟨before, after, rfl, rfl⟩ := h
  simp only [List.flatMap_append]
  exact (hperm.append_left _).append_right _

end Entries

theorem takenLeaves_entries (n : PageId) (ctx : Ctx LeafEntry H 0) (l : Leaf LeafEntry) :
    ((takenLeaves n ctx l).flatMap Leaf.entries).Perm (ctx.plug (leaf l)).entries := by
  obtain ⟨xs, ms, hexchange, hexchanged⟩ := takenLeaves_cases n ctx l
  exact hexchanged.entries hexchange.entries

/-! ### Erasures do not make the tree larger -/

/-- A page is allocated just where three leaves take the place of two. -/
theorem ReleaseExchange.length {xs ms : List (Leaf LeafEntry)} {pages : Nat}
    (h : ReleaseExchange n l xs ms pages) : if pages = 0 then ms.length ≤ xs.length
      else pages = 1 ∧ ms.length = xs.length + 1 := by
  have hjoin : ∀ a b : Leaf LeafEntry, if joinPages a b = 0 then (joined n a b).length ≤ 2
      else joinPages a b = 1 ∧ (joined n a b).length = 3 := by
    intro a b
    rw [joinPages, joined]
    by_cases hfits : Fits (leaf (mergedLeaf a b))
    · rw [if_pos hfits, if_pos hfits, if_pos rfl]
      exact Nat.le_succ 1
    · rw [if_neg hfits, if_neg hfits, if_neg Nat.one_ne_zero]
      exact ⟨rfl, rfl⟩
  cases h with
  | stays => exact Nat.le_refl 1
  | fromLeft d => exact Nat.le_refl 2
  | fromRight d => exact Nat.le_refl 2
  | joinLeft d => exact hjoin d l
  | joinRight d => exact hjoin l d

theorem releasedLeaves_length {slot : Nat} {ctx : Ctx LeafEntry H 0}
    (h : Releases n slot ctx l ∨ (ctx.plug (leaf l)).leaves = [l]) :
    if releasedPages ctx l = 0 then
      (releasedLeaves n ctx l).length ≤ (ctx.plug (leaf l)).leaves.length
    else releasedPages ctx l = 1 ∧
      (releasedLeaves n ctx l).length = (ctx.plug (leaf l)).leaves.length + 1 := by
  rcases h with hreleases | hsingle
  swap
  · obtain ⟨hrow, hpages⟩ := releases_single hsingle (n := n)
    rw [if_pos hpages, hrow, hsingle]
  rcases releasedLeaves_cases n ctx hreleases.neighboured with
    ⟨hrow, hrow', hpages⟩ | ⟨xs, ms, hexchange, before, after, hrow, hrow'⟩
  · rw [if_pos hpages, hrow, hrow']
  have hlength := hexchange.length
  rw [hrow, hrow']
  simp only [List.length_append]
  split
  · rename_i hzero
    rw [if_pos hzero] at hlength
    omega
  · rename_i hpages
    rw [if_neg hpages] at hlength
    omega

/-- Other entries in a leaf change nothing about the size of the tree. -/
theorem plug_leaves_length (ctx : Ctx LeafEntry H 0) (l l' : Leaf LeafEntry) :
    (ctx.plug (leaf l)).leaves.length = (ctx.plug (leaf l')).leaves.length := by
  rw [Ctx.leaves_plug, Ctx.leaves_plug]
  simp

theorem plug_inners (ctx : Ctx LeafEntry H 0) (l l' : Leaf LeafEntry) :
    (ctx.plug (leaf l)).inners = (ctx.plug (leaf l')).inners := by
  rw [Ctx.inners_plug, Ctx.inners_plug]
  rfl

variable {s s' : DiskBspIndex NodeMap} {key : Value}

/-- The leaf the key leads to has it, and is dealt out without it, with a sibling, over three. -/
def Redeals (t : BPlusTree LeafEntry H) (key : Value) (s : DiskBspIndex NodeMap) : Prop :=
  ∃ ctx l slot, Sought t key s ctx l slot ∧ Hit l slot key ∧
    releasedPages ctx (withoutEntry slot l) ≠ 0

/-- The index is a tree with no more levels, inner nodes, leaves and pages than before, but
for one leaf, in one new page, where an erasure dealt out two leaves over three. -/
def Shrunk (ty : DataType) (t : BPlusTree LeafEntry H) (key : Value) (s s' : DiskBspIndex NodeMap) :
    Prop :=
  ∃ (h : Nat) (t' : BPlusTree LeafEntry h), Stored ty t' s' ∧ h ≤ H ∧ t'.inners ≤ t.inners ∧
    (¬ Redeals t key s →
      s'.pager.count = s.pager.count ∧ t'.leaves.length ≤ t.leaves.length) ∧
    (Redeals t key s →
      s'.pager.count = s.pager.count + 1 ∧ t'.leaves.length = t.leaves.length + 1)

section Erased
variable {t : BPlusTree LeafEntry H}

theorem Sought.erased {ctx : Ctx LeafEntry H 0} {slot : Nat} (h : Sought t key s ctx l slot)
    (hs : Stored ty t s) (hkey : key.HasType ty) (hlength : encodedValueSize key ≤ kMaxIndexKeyBytes)
    (hhit : Hit l slot key) {gone : Bool} (hrun : erase key s = .ok gone s') :
    ∃ (h : Nat) (t' : BPlusTree LeafEntry h), Stored ty t' s' ∧ h ≤ H ∧ t'.inners ≤ t.inners ∧
      s'.pager.count = s.pager.count + releasedPages ctx (withoutEntry slot l) ∧
      if releasedPages ctx (withoutEntry slot l) = 0 then t'.leaves.length ≤ t.leaves.length
        else releasedPages ctx (withoutEntry slot l) = 1 ∧ t'.leaves.length = t.leaves.length + 1 := by
  have hspec := h.erase_hit hs hkey hlength hhit
  rw [hrun] at hspec
  obtain ⟨hremoves, h', t', hs', hleaves, -, hinners, hheight, -, hcount⟩ := hspec
  have hrow := releasedLeaves_length (hremoves.releases (h.pend hs))
  rw [plug_leaves_length ctx (withoutEntry slot l) l, ← hleaves, h.plug] at hrow
  rw [plug_inners ctx (withoutEntry slot l) l, h.plug] at hinners
  exact ⟨h', t', hs', hheight, hinners, hcount, hrow⟩

theorem Stored.shrunk (hs : Stored ty t s) (hkey : key.HasType ty)
    (hlength : encodedValueSize key ≤ kMaxIndexKeyBytes) {gone : Bool}
    (hrun : erase key s = .ok gone s') : Shrunk ty t key s s' := by
  by_cases hredeals : Redeals t key s
  · have hsought := hredeals
    obtain ⟨ctx, l, slot, hsought, hhit, hpages⟩ := hsought
    obtain ⟨h, t', hs', hheight, hinners, hcount, hrow⟩ := hsought.erased hs hkey hlength hhit hrun
    rw [if_neg hpages] at hrow
    rw [hrow.1] at hcount
    exact ⟨h, t', hs', hheight, hinners, fun hkept => absurd hredeals hkept, fun _ => ⟨hcount, hrow.2⟩⟩
  · obtain ⟨ctx, l, slot, hsought⟩ := hs.sought hkey
    by_cases hhit : Hit l slot key
    · obtain ⟨h, t', hs', hheight, hinners, hcount, hrow⟩ := hsought.erased hs hkey hlength hhit hrun
      have hpages : releasedPages ctx (withoutEntry slot l) = 0 := by
        by_contra hpages
        exact hredeals ⟨ctx, l, slot, hsought, hhit, hpages⟩
      rw [if_pos hpages] at hrow
      rw [hpages] at hcount
      exact ⟨h, t', hs', hheight, hinners, fun _ => ⟨hcount, hrow⟩, fun hdealt => absurd hdealt hredeals⟩
    · rw [hsought.erase_miss hs hkey hlength hhit] at hrun
      cases hrun
      exact ⟨H, t, hs, Nat.le_refl H, Nat.le_refl _, fun _ => ⟨rfl, Nat.le_refl _⟩,
        fun hdealt => absurd hdealt hredeals⟩

end Erased

/-- Every index reached is a tree, and an erasure that returns adds nothing to it, but for
the leaf of two dealt out over three. -/
theorem erases_shrink (h : Reached ty s) :
    (∃ (H : Nat) (t : BPlusTree LeafEntry H), Stored ty t s) ∧
      ∀ (H : Nat) (t : BPlusTree LeafEntry H), Stored ty t s →
        ∀ (key : Value) (gone : Bool) (s' : DiskBspIndex NodeMap), key.HasType ty →
          encodedValueSize key ≤ kMaxIndexKeyBytes → erase key s = .ok gone s' →
            Shrunk ty t key s s' := by
  refine ⟨h.stored, fun H t hs key gone s' hkey hlength hrun => ?_⟩
  exact hs.shrunk hkey hlength hrun

/-- Of twelve long keys in two leaves, one is erased. -/
theorem erases_shrink_twelveKeys : ∃ (s s' : DiskBspIndex NodeMap) (gone : Bool) (H : Nat)
    (t : BPlusTree LeafEntry H), bulkBuild .unknown (longEntries 12) (blank NodeMap.empty) = .ok () s ∧
      Stored .str t s ∧ erase (longKey 0) s = .ok gone s' ∧ Shrunk .str t (longKey 0) s s' := by
  obtain ⟨s, H, t, hbuild, hreached, hs, -⟩ := reached_longEntries (n := 12) (by decide)
  obtain ⟨gone, s', hrun⟩ := returned_iff.mp (show returned ((bulkBuild .unknown (longEntries 12) >>=
    fun _ => erase (longKey 0)) (blank NodeMap.empty)) = true by decide +kernel)
  rw [bind_ok hbuild] at hrun
  exact ⟨s, s', gone, H, t, hbuild, hs, hrun,
    (erases_shrink hreached).2 H t hs (longKey 0) gone s' ⟨rfl, rfl⟩ (longKey_size 0) hrun⟩

/-- With a second one erased there are five keys in each of the leaves, too few for either
and too many for one: they are dealt out over three leaves. -/
theorem not_erases_shrink : ¬ ∀ (ty : DataType) (s : DiskBspIndex NodeMap), Reached ty s →
    ∀ (key : Value) (gone : Bool) (s' : DiskBspIndex NodeMap), key.HasType ty →
      encodedValueSize key ≤ kMaxIndexKeyBytes → erase key s = .ok gone s' →
        s'.pager.count = s.pager.count ∧
          ∀ (H h : Nat) (t : BPlusTree LeafEntry H) (t' : BPlusTree LeafEntry h),
            Stored ty t s → Stored ty t' s' →
              t'.leaves.length ≤ t.leaves.length ∧ t'.inners ≤ t.inners := by
  intro hall
  obtain ⟨s, H, t, hbuild, hreached, -⟩ := reached_longEntries (n := 12) (by decide)
  have hreturns : returned ((bulkBuild .unknown (longEntries 12) >>= fun _ => erase (longKey 0) >>=
      fun _ => erase (longKey 1)) (blank NodeMap.empty)) = true := by decide +kernel
  have hfour : (stateOf ((bulkBuild .unknown (longEntries 12) >>= fun _ => erase (longKey 0))
      (blank NodeMap.empty))).pager.count = 4 := by decide +kernel
  have hfive : (stateOf ((bulkBuild .unknown (longEntries 12) >>= fun _ => erase (longKey 0) >>=
      fun _ => erase (longKey 1)) (blank NodeMap.empty))).pager.count = 5 := by decide +kernel
  obtain ⟨gone, s₂, hrun⟩ := returned_iff.mp hreturns
  have hafter : s₂.pager.count = 5 :=
    (congrArg (fun r => (stateOf r).pager.count) hrun).symm.trans hfive
  rw [bind_ok hbuild] at hrun
  obtain ⟨gone₁, s₁, hone, htwo⟩ := bind_eq_ok.mp hrun
  have hrun₁ : (bulkBuild .unknown (longEntries 12) >>= fun _ => erase (longKey 0))
      (blank NodeMap.empty) = .ok gone₁ s₁ := (bind_ok hbuild).trans hone
  have hbefore : s₁.pager.count = 4 :=
    (congrArg (fun r => (stateOf r).pager.count) hrun₁).symm.trans hfour
  have hreached₁ : Reached .str s₁ := .erased hreached ⟨rfl, rfl⟩ (longKey_size 0) hone
  have hkept := (hall .str s₁ hreached₁ (longKey 1) gone s₂ ⟨rfl, rfl⟩ (longKey_size 1) htwo).1
  omega

/-- The second tree is no larger than the first, but for a leaf in every page allocated. -/
def NoLarger {H h : Nat} (t : BPlusTree LeafEntry H) (s : DiskBspIndex NodeMap)
    (t' : BPlusTree LeafEntry h) (s' : DiskBspIndex NodeMap) : Prop :=
  h ≤ H ∧ t'.inners ≤ t.inners ∧ s.pager.count ≤ s'.pager.count ∧
    t'.leaves.length ≤ t.leaves.length + (s'.pager.count - s.pager.count)

theorem Stored.erased_noLarger {t : BPlusTree LeafEntry H} (hs : Stored ty t s)
    (hkey : key.HasType ty) (hlength : encodedValueSize key ≤ kMaxIndexKeyBytes) {gone : Bool}
    (hrun : erase key s = .ok gone s') :
    ∃ (h : Nat) (t' : BPlusTree LeafEntry h), Stored ty t' s' ∧ NoLarger t s t' s' := by
  obtain ⟨h, t', hs', hheight, hinners, hkept, hdealt⟩ := hs.shrunk hkey hlength hrun
  refine ⟨h, t', hs', hheight, hinners, ?_⟩
  by_cases hredeals : Redeals t key s
  · obtain ⟨hcount, hleaves⟩ := hdealt hredeals
    constructor <;> omega
  · obtain ⟨hcount, hleaves⟩ := hkept hredeals
    constructor <;> omega

/-- Erasures never add an inner node or a level, and add a leaf only in a page allocated
for it. -/
theorem erasures_noLarger {keys : List Value}
    (hkeys : ∀ key ∈ keys, key.HasType ty ∧ encodedValueSize key ≤ kMaxIndexKeyBytes)
    {t : BPlusTree LeafEntry H} (hs : Stored ty t s) {answers : List Bool}
    (hrun : runCalls erase keys s = .ok answers s') :
    ∃ (h : Nat) (t' : BPlusTree LeafEntry h), Stored ty t' s' ∧ NoLarger t s t' s' := by
  induction keys generalizing H t s answers with
  | nil =>
    rw [runCalls, pure_apply] at hrun
    cases hrun
    exact ⟨H, t, hs, Nat.le_refl H, Nat.le_refl _, Nat.le_refl _, Nat.le_add_right _ _⟩
  | cons key keys ih =>
    obtain ⟨gone, s₁, hone, hrest⟩ := bind_eq_ok.mp hrun
    obtain ⟨answers', s₂, hrest', hpure⟩ := bind_eq_ok.mp hrest
    rw [pure_apply] at hpure
    cases hpure
    obtain ⟨hkey, hlength⟩ := hkeys key List.mem_cons_self
    obtain ⟨h₁, t₁, hs₁, hheight₁, hinners₁, hcount₁, hleaves₁⟩ := hs.erased_noLarger hkey hlength hone
    obtain ⟨h, t', hs', hheight, hinners, hcount, hleaves⟩ :=
      ih (fun k hk => hkeys k (List.mem_cons_of_mem _ hk)) hs₁ hrest'
    exact ⟨h, t', hs', hheight.trans hheight₁, hinners.trans hinners₁, hcount₁.trans hcount, by omega⟩

theorem erasures_noLarger_twoInts : ∃ (s s' : DiskBspIndex NodeMap) (answers : List Bool) (H : Nat)
    (t : BPlusTree LeafEntry H), bulkBuild .unknown (intEntries 2) (blank NodeMap.empty) = .ok () s ∧
      runCalls erase [.int 1, .int 1] s = .ok answers s' ∧
      ∃ (h : Nat) (t' : BPlusTree LeafEntry h), Stored .int t' s' ∧ NoLarger t s t' s' := by
  obtain ⟨s, H, t, hbuild, hs, -⟩ := bulkBuild_spec (intEntries_admissible (n := 2) (by decide)) noBudget
  obtain ⟨answers, s', hrun⟩ := returned_iff.mp (show returned ((bulkBuild .unknown (intEntries 2) >>=
    fun _ => runCalls erase [.int 1, .int 1]) (blank NodeMap.empty)) = true by decide +kernel)
  rw [bind_ok hbuild] at hrun
  refine ⟨s, s', answers, H, t, hbuild, hrun, erasures_noLarger ?_ hs.stored hrun⟩
  intro key hkey
  have hsame : key = .int 1 := by simpa using hkey
  rw [hsame]
  decide

/-! ### From an empty index on -/

/-- One leaf, or a root over more than one. -/
structure Low (ty : DataType) (t : BPlusTree LeafEntry H) (s : DiskBspIndex NodeMap) : Prop
    extends Stored ty t s where
  height : H ≤ 1
  many : H = 1 → t.leaves.length ≠ 1

theorem two_le_takenLeaves (n : PageId) (ctx : Ctx LeafEntry H 0) (hfits : ¬ Fits (leaf l)) :
    2 ≤ (takenLeaves n ctx l).length := by
  obtain ⟨xs, ms, hexchange, before, after, -, hrow⟩ := takenLeaves_cases n ctx l
  have hms : 2 ≤ ms.length := by
    cases hexchange with
    | fits h => exact absurd h hfits
    | halves => exact Nat.le_refl 2
    | give b => exact Nat.le_refl 2
    | dealRight b => exact Nat.le_succ 2
    | dealLeft d => exact Nat.le_succ 2
  rw [hrow, List.length_append, List.length_append]
  omega

/-- A leaf that is taken in leaves the tree low. -/
theorem TookIn.low {ctx : Ctx LeafEntry H 0} (h : TookIn ty n ctx l s)
    (hheight : H ≤ 1) (hmany : H = 1 → (ctx.plug (leaf l)).leaves.length ≠ 1) :
    ∃ (h : Nat) (t' : BPlusTree LeafEntry h), Low ty t' s ∧ t'.leaves = takenLeaves n ctx l ∧
      Reforms LeafEntry.value (ctx.plug (leaf l)) t' := by
  obtain ⟨h, t', hh, hs', hleaves, hreforms⟩ := h
  refine ⟨h, t', ⟨hs', ?_, fun h1 => ?_⟩, hleaves, hreforms⟩
  · rw [hh]
    split
    · exact hheight
    · exact max_le hheight (Nat.le_refl 1)
  · rw [hleaves]
    by_cases hfits : Fits (leaf l)
    · rw [if_pos hfits] at hh
      rw [takenLeaves, if_pos hfits]
      exact hmany (hh.symm.trans h1)
    · have htwo := two_le_takenLeaves n ctx hfits
      omega

/-- And so does one that is released. -/
theorem Removed.low {ctx : Ctx LeafEntry H 0} (h : Removed ty n ctx l s)
    (hheight : H ≤ 1) (hmany : H = 1 → (ctx.plug (leaf l)).leaves.length ≠ 1) :
    ∃ (h : Nat) (t' : BPlusTree LeafEntry h), Low ty t' s ∧ t'.leaves = releasedLeaves n ctx l ∧
      Reforms LeafEntry.value (ctx.plug (leaf l)) t' := by
  obtain ⟨h, t', hs', hleaves, hreforms, -, hle, hflat, -⟩ := h
  refine ⟨h, t', ⟨hs', hle.trans hheight, fun h1 hone => ?_⟩, hleaves, hreforms⟩
  have hzero := hflat (by omega) (hmany (by omega)) hone
  omega

/-- The indexes that insertions and erasures lead to from an empty one. -/
inductive Grows (ty : DataType) : DiskBspIndex NodeMap → Prop where
  | created {s : DiskBspIndex NodeMap} : createEmpty (blank NodeMap.empty) = .ok () s → Grows ty s
  | inserted {key : Value} {rid : UInt64} {s s' : DiskBspIndex NodeMap} : Grows ty s →
    key.HasType ty → encodedValueSize key ≤ kMaxIndexKeyBytes → insert key rid s = .ok () s' →
      Grows ty s'
  | erased {key : Value} {gone : Bool} {s s' : DiskBspIndex NodeMap} : Grows ty s →
    key.HasType ty → encodedValueSize key ≤ kMaxIndexKeyBytes → erase key s = .ok gone s' →
      Grows ty s'

end CwDb.Storage.DiskBspIndex
