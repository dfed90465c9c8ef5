import CwDb.Storage.Index.IntIndex

/-! Runs over an index of integers.

An index of integers that grew from an empty one has leaves a third full, whatever was
inserted and erased in whatever order (`Grows.packed`), and no fuller than that in some
(`leaves_third_full`). An insertion or an erasure returns just when the row of leaves it
leads to is at most 273 long (`Packed.insert_miss`, `Packed.erase_hit`), which it is with
fewer than 19453 entries (`Packed.takes_room`, `Packed.releases_room`). -/
namespace CwDb.Storage.DiskBspIndex
open Foundation BPlusTree

variable {H : Nat} {n : PageId} {l : Leaf LeafEntry} {slot : Nat} {s s' : DiskBspIndex NodeMap}
  {key : Value} {rid : UInt64}

theorem int_size (hkey : key.HasType .int) : encodedValueSize key ≤ kMaxIndexKeyBytes := by
  obtain ⟨i, rfl⟩ := Value.hasType_int hkey
  show 1 + 8 ≤ kMaxIndexKeyBytes
  decide

/-- A low index whose leaves are a third full. -/
structure Packed (t : BPlusTree LeafEntry H) (s : DiskBspIndex NodeMap) : Prop extends Low .int t s where
  full : ThirdFull t.leaves

/-! ### Rows of integers -/

section Rows
variable {row row' : List (Leaf LeafEntry)}

/-- A row has as many leaves as its entries allow. -/
theorem length_entries_ge {k : Nat} (h : ∀ m ∈ row, k ≤ m.entries.length) :
    k * row.length ≤ (row.flatMap Leaf.entries).length := by
  induction row with
  | nil => exact Nat.le_refl 0
  | cons m row ih =>
    have hm := h m List.mem_cons_self
    have hrest := ih fun x hx => h x (List.mem_cons_of_mem _ hx)
    rw [List.flatMap_cons, List.length_append, List.length_cons, Nat.mul_succ]
    omega

theorem ThirdFull.length_le (h : ThirdFull row) :
    row.length = 1 ∨ 71 * row.length ≤ (row.flatMap Leaf.entries).length :=
  h.imp_right length_entries_ge

/-- The leaves of a row that is a third full have integers in them. -/
theorem ThirdFull.holdsInts (h : ThirdFull row) (hne : row.flatMap Leaf.entries ≠ [])
    (hints : ∀ e ∈ row.flatMap Leaf.entries, e.Encodes .int) : ∀ m ∈ row, HoldsInts m := by
  intro m hm
  refine ⟨?_, fun e he => hints e (List.mem_flatMap.mpr ⟨m, hm, he⟩)⟩
  rcases h with hone | hall
  · obtain ⟨x, rfl⟩ := List.length_eq_one_iff.mp hone
    rw [List.mem_singleton.mp hm]
    simpa using hne
  · have hpos := hall m hm
    exact List.ne_nil_of_length_pos (by omega)

end Rows

/-! ### The row around a leaf -/

section Packed
variable {t : BPlusTree LeafEntry H} {ctx : Ctx LeafEntry H 0}

/-- The leaf and its context, in an index that is low. -/
inductive LowCtx : {H : Nat} → Ctx LeafEntry H 0 → Prop
  | alone : LowCtx (Ctx.top : Ctx LeafEntry 0 0)
  | below (pid : PageId) (ks : List LeafEntry) (left right : List (BPlusTree LeafEntry 0)) :
    LowCtx (Ctx.frame pid ks left right (Ctx.top : Ctx LeafEntry 1 1))

theorem lowCtx (ctx : Ctx LeafEntry H 0) (hH : H ≤ 1) : LowCtx ctx := by
  cases ctx with
  | top => exact .alone
  | frame pid ks left right up =>
    have hone : H = 1 := Nat.le_antisymm hH up.le_height
    subst hone
    rw [up.eq_top]
    exact .below pid ks left right

theorem Packed.entries_of_mem (hs : Packed t s) (hne : t.entries ≠ []) {m : Leaf LeafEntry}
    (hm : m ∈ t.leaves) : HoldsInts m ∧ Fits (leaf m) := by
  have hwritten := hs.written _ (leaf_mem_records hm)
  exact ⟨⟨hs.shape.filled hne m hm, hwritten.encodes⟩, hwritten.fits⟩

theorem mem_leaves_around {pid : PageId} {ks : List LeafEntry} {left right : List (BPlusTree LeafEntry 0)}
    {m : Leaf LeafEntry} (hm : leaf m ∈ left ++ right) :
    m ∈ ((Ctx.frame pid ks left right (Ctx.top : Ctx LeafEntry 1 1)).plug (leaf l)).leaves := by
  rw [Ctx.plug, Ctx.plug, leaves_node]
  refine List.mem_flatMap.mpr ⟨leaf m, ?_, by rw [leaves_leaf]; exact List.mem_singleton_self m⟩
  rcases List.mem_append.mp hm with hm | hm
  · exact List.mem_append_left _ hm
  · exact List.mem_append_right _ (List.mem_cons_of_mem _ hm)

theorem Packed.rootRow {pid : PageId} {ks : List LeafEntry} {left right : List (BPlusTree LeafEntry 0)}
    (hs : Packed ((Ctx.frame pid ks left right (Ctx.top : Ctx LeafEntry 1 1)).plug (leaf l)) s) :
    RootRow left right ∧ ks.length + 1 = (left ++ leaf l :: right).length ∧
      ∀ e ∈ ks, e.Encodes .int := by
  have hne : ((Ctx.frame pid ks left right (Ctx.top : Ctx LeafEntry 1 1)).plug (leaf l)).entries ≠ [] :=
    fun hnil => absurd (hs.shape.empty hnil) (by decide)
  have hroot := hs.written _ (rootRecord_mem _)
  have hjointed := hs.shape.jointed
  have hmany := hs.many rfl
  rw [Ctx.plug, Ctx.plug] at hroot hjointed hmany
  rw [leaves_node, length_leavesOf] at hmany
  have hlength := (jointed_node.mp hjointed).1
  have hfits := (fits_root_ints hlength hroot.encodes).mp hroot.fits
  rw [List.length_append, List.length_cons] at hmany hfits
  refine ⟨⟨fun m hm => (hs.entries_of_mem hne (mem_leaves_around hm)).1,
    fun m hm => (hs.entries_of_mem hne (mem_leaves_around hm)).2, ?_, ?_⟩, hlength, hroot.encodes⟩
  · intro hnil
    obtain ⟨rfl, rfl⟩ := List.append_eq_nil_iff.mp hnil
    exact hmany rfl
  · rw [List.length_append]
    omega

theorem ThirdFull.plug {l' : Leaf LeafEntry} (h : ThirdFull (ctx.plug (leaf l)).leaves)
    (hle : l.entries.length ≤ l'.entries.length) : ThirdFull (ctx.plug (leaf l')).leaves := by
  rcases h with hone | hall
  · exact .inl ((plug_leaves_length ctx l' l).trans hone)
  · refine .inr fun m hm => ?_
    rw [Ctx.leaves_plug, leaves_leaf] at hm hall
    rcases List.mem_append.mp hm with hm | hm
    · rcases List.mem_append.mp hm with hm | hm
      · exact hall m (by simp [hm])
      · rw [List.mem_singleton.mp hm]
        exact (hall l (by simp)).trans hle
    · exact hall m (by simp [hm])

theorem ThirdFull.plugBut {l' : Leaf LeafEntry} (h : ThirdFull (ctx.plug (leaf l)).leaves)
    (hle : l.entries.length ≤ l'.entries.length + 1) : ThirdFullBut l' (ctx.plug (leaf l')).leaves := by
  rcases h with hone | hall
  · exact .inl ((plug_leaves_length ctx l' l).trans hone)
  · rw [Ctx.leaves_plug, leaves_leaf] at hall
    have hl := hall l (by simp)
    refine .inr ⟨by omega, fun m hm hid => ?_⟩
    rw [Ctx.leaves_plug, leaves_leaf] at hm
    rcases List.mem_append.mp hm with hm | hm
    · rcases List.mem_append.mp hm with hm | hm
      · exact hall m (by simp [hm])
      · exact absurd (congrArg Leaf.id (List.mem_singleton.mp hm)) hid
    · exact hall m (by simp [hm])

/-! ### An insertion -/

section Insert

theorem Packed.leaf_fits (hs : Packed (ctx.plug (leaf l)) s) : l.entries.length ≤ 214 := by
  have hwritten := hs.toLaid.leaf_written rfl
  exact (fits_ints hwritten.encodes).mp hwritten.fits

variable (rid) in
/-- The row of leaves with the entry taken in. -/
theorem Packed.taken (hs : Packed (ctx.plug (leaf l)) s) (hkey : key.HasType .int)
    (hle : slot ≤ l.entries.length) (n : PageId) :
    ThirdFull (takenLeaves n ctx (withEntryAt slot (entryOf key rid) l)) ∧
      ((takenLeaves n ctx (withEntryAt slot (entryOf key rid) l)).flatMap Leaf.entries).Perm
        (entryOf key rid :: (ctx.plug (leaf l)).entries) ∧
      ∀ m ∈ takenLeaves n ctx (withEntryAt slot (entryOf key rid) l), HoldsInts m := by
  have hpend := hs.toLaid.pend_withEntryAt slot (entryOf_encodes rid hkey (int_size hkey))
  have hints := hpend.encodes_all
  have hlength : (withEntryAt slot (entryOf key rid) l).entries.length = l.entries.length + 1 :=
    List.length_insertIdx_of_le_length hle _
  have hperm := (takenLeaves_entries n ctx (withEntryAt slot (entryOf key rid) l)).trans
    (plug_withEntryAt_perm (e := entryOf key rid) hle)
  have hfull : ThirdFull (takenLeaves n ctx (withEntryAt slot (entryOf key rid) l)) := by
    obtain ⟨xs, ms, hexchange, hexchanged⟩ :=
      takenLeaves_cases n ctx (withEntryAt slot (entryOf key rid) l)
    refine hexchange.thirdFull hexchanged (leafIds_nodup hpend.nodup) (fun m hm e he => ?_) ?_
    · exact hints e (List.mem_flatMap.mpr ⟨m, hm, he⟩)
    · exact hs.full.plug (by omega)
  refine ⟨hfull, hperm, hfull.holdsInts ?_ fun e he => hints e ?_⟩
  · exact fun hnil => List.cons_ne_nil _ _ (hnil ▸ hperm).nil_eq.symm
  · exact (takenLeaves_entries n ctx _).mem_iff.mp he

theorem Packed.takes_iff (hs : Packed (ctx.plug (leaf l)) s) (hkey : key.HasType .int)
    (hle : slot ≤ l.entries.length) (n : PageId) :
    Takes n ctx (withEntryAt slot (entryOf key rid) l) ↔
      (takenLeaves n ctx (withEntryAt slot (entryOf key rid) l)).length ≤ 273 := by
  obtain ⟨-, -, hholds⟩ := hs.taken rid hkey hle n
  have hfits := hs.leaf_fits
  have hlength : (withEntryAt slot (entryOf key rid) l).entries.length = l.entries.length + 1 :=
    List.length_insertIdx_of_le_length hle _
  have hints : ∀ e ∈ (withEntryAt slot (entryOf key rid) l).entries, e.Encodes .int :=
    (hs.toLaid.pend_withEntryAt slot (entryOf_encodes rid hkey (int_size hkey))).encodes
  generalize withEntryAt slot (entryOf key rid) l = l' at hlength hholds hints ⊢
  cases lowCtx ctx hs.height with
  | alone =>
    rw [Takes, takenLeaves]
    by_cases hone : Fits (leaf l')
    · rw [if_pos hone, Ctx.plug, leaves_leaf]
      exact iff_of_true (.inl hone) (show 1 ≤ 273 by decide)
    · rw [if_neg hone, LeafSettles, splitLeaves]
      refine iff_of_true (.inr ⟨?_, ?_⟩) (show 2 ≤ 273 by decide)
      · rw [fits_ints fun e he => hints e (List.mem_of_mem_take he), leftHalf, List.length_take]
        omega
      · rw [fits_ints fun e he => hints e (List.mem_of_mem_drop he), rightHalf, List.length_drop]
        omega
  | below pid ks left right =>
    obtain ⟨hrow, -⟩ := hs.rootRow
    exact DiskBspIndex.takes_iff hrow (by omega) hholds

variable (rid) in
/-- A key that is not in its slot is inserted just if the root takes the leaves. -/
theorem Packed.insert_miss {t : BPlusTree LeafEntry H} (hs : Packed t s)
    (hsought : Sought t key s ctx l slot) (hkey : key.HasType .int) (hne : t.entries ≠ [])
    (hmiss : ¬ Hit l slot key) :
    ReturnsIff ((takenLeaves s.pager.count ctx (withEntryAt slot (entryOf key rid) l)).length ≤ 273)
      (fun s' => ∃ (h : Nat) (t' : BPlusTree LeafEntry h), Packed t' s' ∧
        Reforms LeafEntry.value (ctx.plug (leaf (withEntryAt slot (entryOf key rid) l))) t')
      (insert key rid s) := by
  have hspec := hsought.insert_miss rid hs.toStored hkey (int_size hkey) hne hmiss
  obtain ⟨rfl, -, -, -, hle⟩ := hsought
  refine hspec.imp (hs.takes_iff hkey hle _) fun s' h => ?_
  obtain ⟨h, t', hlow, hleaves, hreforms⟩ := h.low hs.height fun h1 => by
    rw [plug_leaves_length ctx _ l]
    exact hs.many h1
  refine ⟨h, t', ⟨hlow, ?_⟩, hreforms⟩
  rw [hleaves]
  exact (hs.taken rid hkey hle _).1

end Insert

/-! ### An erasure -/

section Erase

theorem Packed.neighboured (hs : Packed (ctx.plug (leaf l)) s) : Neighboured ctx := by
  cases lowCtx ctx hs.height with
  | alone =>
    rw [Neighboured]
    trivial
  | below pid ks left right =>
    rw [Neighboured]
    exact hs.rootRow.1.ne

/-- The row of leaves with the entry taken out. -/
theorem Packed.released (hs : Packed (ctx.plug (leaf l)) s) {e : LeafEntry}
    (he : e ∈ l.entries[slot]?) (n : PageId) :
    ThirdFull (releasedLeaves n ctx (withoutEntry slot l)) ∧
      ((releasedLeaves n ctx (withoutEntry slot l)).flatMap Leaf.entries).Perm
        (ctx.plug (leaf (withoutEntry slot l))).entries := by
  have hwritten := hs.toLaid.leaf_written rfl
  have hpend : PendingAt .int ctx (leaf (withoutEntry slot l)) s :=
    hs.toLaid.pend fun x hx => hwritten.encodes x (List.mem_of_mem_eraseIdx hx)
  have hints := hpend.encodes_all
  obtain ⟨hlt, -⟩ := List.getElem?_eq_some_iff.mp he
  have hlength : (withoutEntry slot l).entries.length = l.entries.length - 1 :=
    List.length_eraseIdx_of_lt hlt
  rcases releasedLeaves_cases n ctx (l := withoutEntry slot l) fun _ => hs.neighboured with
    ⟨hrow, hrow', -⟩ | ⟨xs, ms, hexchange, hexchanged⟩
  · refine ⟨.inl (by rw [hrow']; rfl), List.Perm.of_eq ?_⟩
    rw [hrow', ← hrow]
    rfl
  · refine ⟨hexchange.thirdFull hexchanged (leafIds_nodup hpend.nodup) (fun m hm e he => ?_) ?_,
      hexchanged.entries (.of_eq hexchange.entries)⟩
    · exact hints e (List.mem_flatMap.mpr ⟨m, hm, he⟩)
    · exact hs.full.plugBut (by omega)

theorem Packed.removes_iff (hs : Packed (ctx.plug (leaf l)) s) {e : LeafEntry}
    (he : e ∈ l.entries[slot]?) (n : PageId) :
    Removes n slot ctx (withoutEntry slot l) ↔
      (releasedLeaves n ctx (withoutEntry slot l)).length ≤ 273 := by
  obtain ⟨hfull, hperm⟩ := hs.released he n
  have hfits := hs.leaf_fits
  have hwritten := hs.toLaid.leaf_written rfl
  have hpend : PendingAt .int ctx (leaf (withoutEntry slot l)) s :=
    hs.toLaid.pend fun x hx => hwritten.encodes x (List.mem_of_mem_eraseIdx hx)
  have hints := hpend.encodes_all
  have hle : (withoutEntry slot l).entries.length ≤ l.entries.length :=
    (List.eraseIdx_sublist _ _).length_le
  have hself : ∀ e ∈ (withoutEntry slot l).entries, e.Encodes .int := hpend.encodes
  generalize withoutEntry slot l = l' at hfull hperm hints hle hself ⊢
  rw [Removes]
  cases lowCtx ctx hs.height with
  | alone =>
    rw [Releases, releasedLeaves]
    exact iff_of_true (.inr trivial) (show 1 ≤ 273 by decide)
  | below pid ks left right =>
    obtain ⟨hrow, hkeys, hks⟩ := hs.rootRow
    obtain ⟨d, hd⟩ := List.exists_mem_of_ne_nil _ hrow.ne
    have hne : ((Ctx.frame pid ks left right (Ctx.top : Ctx LeafEntry 1 1)).plug (leaf l')).entries ≠ [] := by
      intro hnil
      exact (hrow.holds d hd).1 (List.flatMap_eq_nil_iff.mp hnil d (mem_leaves_around hd))
    rw [or_iff_right hne]
    refine releases_iff hrow hself (hle.trans hfits) ?_ hks (hfull.holdsInts ?_ fun e he => ?_)
    · rw [hkeys, List.length_append, List.length_append, List.length_cons, List.length_cons]
    · exact fun hnil => hne (hnil ▸ hperm).nil_eq.symm
    · exact hints e (hperm.mem_iff.mp he)

/-- A key in its slot is erased just if the root takes the leaves. -/
theorem Packed.erase_hit {t : BPlusTree LeafEntry H} (hs : Packed t s)
    (hsought : Sought t key s ctx l slot) (hkey : key.HasType .int) (hhit : Hit l slot key) :
    ReturnsIff ((releasedLeaves s.pager.count ctx (withoutEntry slot l)).length ≤ 273)
      (fun s' => ∃ (h : Nat) (t' : BPlusTree LeafEntry h), Packed t' s' ∧
        Reforms LeafEntry.value (ctx.plug (leaf (withoutEntry slot l))) t')
      (erase key s) := by
  have hspec := hsought.erase_hit hs.toStored hkey (int_size hkey) hhit
  obtain ⟨rfl, -⟩ := hsought
  obtain ⟨e, he, -⟩ := hhit
  refine hspec.imp (hs.removes_iff he _) fun s' h => ?_
  obtain ⟨h, t', hlow, hleaves, hreforms⟩ := h.low hs.height fun h1 => by
    rw [plug_leaves_length ctx _ l]
    exact hs.many h1
  refine ⟨h, t', ⟨hlow, ?_⟩, hreforms⟩
  rw [hleaves]
  exact (hs.released he _).1

end Erase

/-! ### Runs -/

section Runs
variable {t : BPlusTree LeafEntry H}

theorem packed_single {l : Leaf LeafEntry} (hs : Stored .int (leaf l) s) : Packed (leaf l) s where
  toStored := hs
  height := Nat.zero_le 1
  many h := absurd h (by decide)
  full := .inl rfl

theorem Packed.inserted (hs : Packed t s) (hkey : key.HasType .int)
    (hrun : insert key rid s = .ok () s') : ∃ (h : Nat) (t' : BPlusTree LeafEntry h), Packed t' s' := by
  by_cases hnil : t.entries = []
  · obtain ⟨s₁, l, hrun', hs', -⟩ := insert_empty rid hs.toStored hkey (int_size hkey) hnil
    rw [hrun] at hrun'
    cases hrun'
    exact ⟨0, leaf l, packed_single hs'⟩
  obtain ⟨ctx, l, slot, hsought⟩ := hs.toStored.sought hkey
  by_cases hhit : Hit l slot key
  · rw [hsought.insert_hit hs.toStored hkey (int_size hkey) hhit] at hrun
    cases hrun
  · have hspec := hs.insert_miss rid hsought hkey hnil hhit
    rw [hrun] at hspec
    obtain ⟨-, h, t', hs', -⟩ := hspec
    exact ⟨h, t', hs'⟩

theorem Packed.erased (hs : Packed t s) (hkey : key.HasType .int) {gone : Bool}
    (hrun : erase key s = .ok gone s') : ∃ (h : Nat) (t' : BPlusTree LeafEntry h), Packed t' s' := by
  obtain ⟨ctx, l, slot, hsought⟩ := hs.toStored.sought hkey
  by_cases hhit : Hit l slot key
  · have hspec := hs.erase_hit hsought hkey hhit
    rw [hrun] at hspec
    obtain ⟨-, h, t', hs', -⟩ := hspec
    exact ⟨h, t', hs'⟩
  · rw [hsought.erase_miss hs.toStored hkey (int_size hkey) hhit] at hrun
    cases hrun
    exact ⟨H, t, hs⟩

/-- Whatever was inserted and erased, the leaves are a third full. -/
theorem Grows.packed (h : Grows .int s) : ∃ (H : Nat) (t : BPlusTree LeafEntry H), Packed t s := by
  induction h with
  | created hrun =>
    obtain ⟨s, l, hrun', hs, -⟩ := createEmpty_spec .int
    rw [hrun] at hrun'
    cases hrun'
    exact ⟨0, _, packed_single hs⟩
  | inserted _ hkey _ hrun ih =>
    obtain ⟨H, t, hs⟩ := ih
    exact hs.inserted hkey hrun
  | erased _ hkey _ hrun ih =>
    obtain ⟨H, t, hs⟩ := ih
    exact hs.erased hkey hrun

/-! ### Room -/

/-- An insertion finds room as long as there are fewer than 19453 entries. -/
theorem Packed.takes_room {ctx : Ctx LeafEntry H 0} (hs : Packed (ctx.plug (leaf l)) s)
    (hkey : key.HasType .int) (hle : slot ≤ l.entries.length)
    (hroom : (ctx.plug (leaf l)).entries.length < 19453) (n : PageId) :
    (takenLeaves n ctx (withEntryAt slot (entryOf key rid) l)).length ≤ 273 := by
  obtain ⟨hfull, hperm, -⟩ := hs.taken rid hkey hle n
  have hlength := hperm.length_eq
  rw [List.length_cons] at hlength
  have hrow := hfull.length_le
  omega

/-- So does an erasure. -/
theorem Packed.releases_room {ctx : Ctx LeafEntry H 0} (hs : Packed (ctx.plug (leaf l)) s)
    {e : LeafEntry} (he : e ∈ l.entries[slot]?)
    (hroom : (ctx.plug (leaf l)).entries.length < 19453) (n : PageId) :
    (releasedLeaves n ctx (withoutEntry slot l)).length ≤ 273 := by
  obtain ⟨hfull, hperm⟩ := hs.released he n
  have hlength := (plug_withoutEntry_perm ctx he).length_eq
  rw [List.length_cons] at hlength
  have hrow := hfull.length_le
  have hsame := hperm.length_eq
  omega

/-- A row this short is below a root whose separators one byte counts. -/
theorem Packed.narrow (hs : Packed t s) (hroom : t.entries.length < 18247) : Narrow 255 t := by
  have hrow : t.leaves.length ≤ 256 := by
    have hlength := hs.full.length_le
    have hentries : t.entries.length = (t.leaves.flatMap Leaf.entries).length := rfl
    omega
  have hheight := hs.height
  have hjointed := hs.shape.jointed
  clear hs hroom
  match H, t with
  | 0, t => exact narrow_leaf 255 t
  | 1, t =>
    rw [eq_node t] at hjointed hrow ⊢
    rw [leaves_node, length_leavesOf] at hrow
    refine narrow_node.mpr ⟨?_, fun c _ => narrow_leaf 255 c⟩
    have hlength := (jointed_node.mp hjointed).1
    omega

end Runs

end Packed

/-! ### Ascending integers -/

theorem Packed.encodes {t : BPlusTree LeafEntry H} (hs : Packed t s) {m : Leaf LeafEntry} (hm : m ∈ t.leaves) :
    ∀ e ∈ m.entries, e.Encodes .int :=
  (hs.written _ (leaf_mem_records hm)).encodes

/-- From an empty index on, whatever was inserted and erased, every leaf but one that is
alone has 71 entries or more: a third of a page. -/
theorem leaves_third_full (h : Grows .int s) : ∃ (H : Nat) (t : BPlusTree LeafEntry H),
    Stored .int t s ∧
      (2 ≤ t.leaves.length → ∀ m ∈ t.leaves, 12 + 71 * 19 ≤ leafPayloadBytes m.entries) := by
  obtain ⟨H, t, hs⟩ := h.packed
  refine ⟨H, t, hs.toStored, fun htwo m hm => ?_⟩
  rw [leafPayloadBytes_ints (hs.encodes hm)]
  rcases hs.full with hone | hfull
  · omega
  · have hentries := hfull m hm
    omega

/-- The integers from 0 to 215 one after the other, and the first of them erased again. -/
def ascendingRun : IndexM NodeMap Bool := do
  createEmpty
  let _ ← runCalls (fun i => insert (.int (Int64.ofNat i)) (UInt64.ofNat i)) (List.range 216)
  erase (.int 0)

theorem grows_inserts : ∀ (is : List Nat) {s s' : DiskBspIndex NodeMap} {answers : List Unit},
    Grows .int s →
      runCalls (fun i => insert (.int (Int64.ofNat i)) (UInt64.ofNat i)) is s = .ok answers s' →
        Grows .int s'
  | [], _, _, _, hs, hrun => by
    rw [runCalls, pure_apply] at hrun
    cases hrun
    exact hs
  | i :: is, _, _, _, hs, hrun => by
    obtain ⟨u, s₁, hone, hrest⟩ := bind_eq_ok.mp hrun
    obtain ⟨us, s₂, hrest', hpure⟩ := bind_eq_ok.mp hrest
    rw [pure_apply] at hpure
    cases hpure
    exact grows_inserts is (.inserted hs ⟨rfl, rfl⟩ (int_size ⟨rfl, rfl⟩) hone) hrest'

/-- A root over some leaves has as many children. -/
theorem Packed.leaves_length {t : BPlusTree LeafEntry H} (hs : Packed t s) {k : Nat}
    (hroot : (pageOf t.rootRecord).children.length = k) (hmany : 0 < k) : t.leaves.length = k := by
  have hheight := hs.height
  clear hs
  match H, t with
  | 0, t => exact absurd hroot hmany.ne
  | 1, t =>
    rw [eq_node t] at hroot ⊢
    rw [leaves_node, length_leavesOf, ← hroot]
    exact (List.length_map _).symm

/-- It leaves 215 integers in three leaves. -/
theorem ascendingRun_ends : ∃ (gone : Bool) (s : DiskBspIndex NodeMap) (H : Nat)
    (t : BPlusTree LeafEntry H), ascendingRun (blank NodeMap.empty) = .ok gone s ∧ Grows .int s ∧
      Packed t s ∧ s.size = 215 ∧ t.leaves.length = 3 := by
  have hreturns : returned ((ascendingRun >>= fun gone => do
      let s ← get
      let root ← readPage s.rootPage
      if s.size = 215 ∧ root.children.length = 3 then return gone
      else throw (.logicError "")) (blank NodeMap.empty)) = true := by decide +kernel
  obtain ⟨gone, u, hall⟩ := returned_iff.mp hreturns
  obtain ⟨gone', s, hrun, hends⟩ := bind_eq_ok.mp hall
  have hgrows : Grows .int s := by
    obtain ⟨_, s₀, hcreate, hrest⟩ := bind_eq_ok.mp hrun
    obtain ⟨_, s₁, hinserts, herase⟩ := bind_eq_ok.mp hrest
    exact .erased (grows_inserts _ (.created hcreate) hinserts) ⟨rfl, rfl⟩ (int_size ⟨rfl, rfl⟩) herase
  obtain ⟨H, t, hs⟩ := hgrows.packed
  have hread := readPage_written (hs.written _ (rootRecord_mem t))
  rw [rootRecord_id, ← hs.root] at hread
  rw [get_bind_apply, bind_ok hread] at hends
  by_cases hthree : s.size = 215 ∧ (pageOf t.rootRecord).children.length = 3
  · exact ⟨gone', s, H, t, hrun, hgrows, hs, hthree.1, hs.leaves_length hthree.2 (by decide)⟩
  · rw [if_neg hthree] at hends
    cases hends

/-- The three leaves are a third full each. -/
theorem leaves_third_full_ascending : ∃ (gone : Bool) (s : DiskBspIndex NodeMap) (H : Nat)
    (t : BPlusTree LeafEntry H), ascendingRun (blank NodeMap.empty) = .ok gone s ∧ Stored .int t s ∧
      (2 ≤ t.leaves.length → ∀ m ∈ t.leaves, 12 + 71 * 19 ≤ leafPayloadBytes m.entries) := by
  obtain ⟨gone, s, -, -, hrun, hgrows, -⟩ := ascendingRun_ends
  obtain ⟨H, t, hs, hfull⟩ := leaves_third_full hgrows
  exact ⟨gone, s, H, t, hrun, hs, hfull⟩

/-- They are not two thirds full, nor do they miss that by one entry only: that many entries
in each of them would be 348 and more. -/
theorem not_leaves_two_thirds_full : ¬ ∀ s : DiskBspIndex NodeMap, Grows .int s →
    ∀ (H : Nat) (t : BPlusTree LeafEntry H), Stored .int t s → 3 ≤ t.leaves.length →
      ∀ m ∈ t.leaves, kMinLeafFillBytes - 522 ≤ leafPayloadBytes m.entries := by
  intro hall
  obtain ⟨gone, s, H, t, -, hgrows, hs, hsize, hleaves⟩ := ascendingRun_ends
  have hfull := hall s hgrows H t hs.toStored (Nat.le_of_eq hleaves.symm)
  have hmany : ∀ m ∈ t.leaves, 116 ≤ m.entries.length := by
    intro m hm
    have hfill : kMinLeafFillBytes = 2734 := rfl
    have hm' := hfull m hm
    rw [leafPayloadBytes_ints (hs.encodes hm)] at hm'
    omega
  have hentries : 116 * t.leaves.length ≤ t.entries.length := length_entries_ge hmany
  have hcount := hs.size
  omega

end CwDb.Storage.DiskBspIndex
