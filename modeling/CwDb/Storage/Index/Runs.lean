import CwDb.Storage.Index.Removal
import CwDb.Storage.Index.BulkBuild
import CwDb.Storage.Index.RootOverflow

/-! Indexes over whole runs.

From a new index, empty or built of a list, insertions and erasures that return lead to
trees in their pages only (`Reached.stored`), whatever the order of the keys in them. So
it is known of every such index when an insertion or an erasure returns
(`inserts_return_iff`, `erases_return_iff`). -/
namespace CwDb.Storage.DiskBspIndex
open Foundation BPlusTree

variable {ty : DataType} {H k : Nat} {s s' : DiskBspIndex NodeMap} {key : Value} {rid : UInt64}

/-! ### New indexes -/

theorem createEmpty_spec (ty : DataType) : ∃ (s : DiskBspIndex NodeMap) (l : Leaf LeafEntry),
    createEmpty (blank NodeMap.empty) = .ok () s ∧ Stored ty (leaf l) s ∧ l.entries = [] := by
  refine ⟨_, { id := 1, next := 0, entries := [] }, rfl, ⟨⟨⟨?_, trivial, fun hne => absurd rfl hne,
    fun _ => rfl, ⟨rfl, rfl⟩⟩, rfl, fun r hr => ?_⟩, rfl⟩, rfl⟩
  · rw [ids_leaf]
    exact Multiset.nodup_singleton _
  · rw [records_leaf] at hr
    rw [Multiset.mem_singleton.mp hr]
    exact { pos := Nat.one_pos, lt := by decide, page := rfl, fits := rfl, encodes := fun e he => by cases he }

/-! ### One operation -/

/-- Where a key is looked for: a leaf of the tree and a slot of it. -/
structure Sought (t : BPlusTree LeafEntry H) (key : Value) (s : DiskBspIndex NodeMap)
    (ctx : Ctx LeafEntry H 0) (l : Leaf LeafEntry) (slot : Nat) : Prop where
  plug : ctx.plug (leaf l) = t
  chosen : ctx.Chosen (codeSlot key)
  found : findLeaf key s = .ok (pageOf (.leaf l), l.id :: ctx.path) s
  bound : lowerBoundSlot (pageOf (.leaf l)) key = .ok slot
  le : slot ≤ l.entries.length

/-- The key is in the slot it is looked for in. -/
def Hit (l : Leaf LeafEntry) (slot : Nat) (key : Value) : Prop := ∃ e ∈ l.entries[slot]?, e.value = key

theorem Stored.sought {t : BPlusTree LeafEntry H} (hs : Stored ty t s) (hkey : key.HasType ty) :
    ∃ ctx l slot, Sought t key s ctx l slot := by
  obtain ⟨ctx, l, hplug, hchosen, hfound⟩ := findLeaf_spec hs.toLaid hkey
  have hwritten := hs.toLaid.leaf_written hplug
  obtain ⟨slot, hle, hslot⟩ := lowerBoundSlot_encodes (p := pageOf (.leaf l)) key hwritten.encodes
  exact ⟨ctx, l, slot, hplug, hchosen, hfound, hslot, hle⟩

section Sought
variable {t : BPlusTree LeafEntry H} {ctx : Ctx LeafEntry H 0} {l : Leaf LeafEntry} {slot : Nat}

theorem Sought.entries_ne_nil (h : Sought t key s ctx l slot) (hhit : Hit l slot key) :
    t.entries ≠ [] := by
  obtain ⟨rfl, -⟩ := h
  obtain ⟨e, he, -⟩ := hhit
  rw [Ctx.entries_plug, entries_leaf]
  have hmem := List.mem_of_getElem? he
  exact List.ne_nil_of_mem (List.mem_append_left _ (List.mem_append_right _ hmem))

theorem Sought.insert_hit (h : Sought t key s ctx l slot) (hs : Stored ty t s) (hkey : key.HasType ty)
    (hlength : encodedValueSize key ≤ kMaxIndexKeyBytes) (hhit : Hit l slot key) :
    insert key rid s = .error (.runtimeError "Duplicate index key") s := by
  have hne := h.entries_ne_nil hhit
  obtain ⟨rfl, -, hfound, hslot, -⟩ := h
  rw [insert_found hs hkey hlength hne (hs.toLaid.leaf_written rfl) hfound hslot]
  exact if_pos hhit

variable (rid) in
theorem Sought.insert_miss (h : Sought t key s ctx l slot) (hs : Stored ty t s) (hkey : key.HasType ty)
    (hlength : encodedValueSize key ≤ kMaxIndexKeyBytes) (hne : t.entries ≠ [])
    (hmiss : ¬ Hit l slot key) :
    ReturnsIff (Takes s.pager.count ctx (withEntryAt slot (entryOf key rid) l))
      (TookIn ty s.pager.count ctx (withEntryAt slot (entryOf key rid) l)) (insert key rid s) := by
  obtain ⟨rfl, -, hfound, hslot, hle⟩ := h
  exact insert_stored hs hkey hlength hne hfound hslot hle fun e he hvalue => hmiss ⟨e, he, hvalue⟩

theorem Sought.erase_hit (h : Sought t key s ctx l slot) (hs : Stored ty t s) (hkey : key.HasType ty)
    (hlength : encodedValueSize key ≤ kMaxIndexKeyBytes) (hhit : Hit l slot key) :
    ReturnsIff (Removes s.pager.count slot ctx (withoutEntry slot l))
      (Removed ty s.pager.count ctx (withoutEntry slot l)) (erase key s) := by
  obtain ⟨rfl, -, hfound, hslot, -⟩ := h
  exact erase_stored hs hkey hlength hfound hslot hhit

/-- The answer then is that the key was there. -/
theorem Sought.erased_true (h : Sought t key s ctx l slot) (hs : Stored ty t s) (hkey : key.HasType ty)
    (hlength : encodedValueSize key ≤ kMaxIndexKeyBytes) (hhit : Hit l slot key) {gone : Bool}
    (hrun : erase key s = .ok gone s') : gone = true := by
  have hne := h.entries_ne_nil hhit
  obtain ⟨rfl, -, hfound, hslot, -⟩ := h
  rw [erase_found hs hkey hlength hne (hs.toLaid.leaf_written rfl) hfound hslot] at hrun
  obtain ⟨u, s₁, -, hpure⟩ := bind_eq_ok.mp ((if_pos hhit).symm.trans hrun)
  rw [pure_apply] at hpure
  cases hpure
  rfl

/-- The tree without the entry, its leaf not written yet. -/
theorem Sought.pend (h : Sought t key s ctx l slot) (hs : Stored ty t s) :
    PendingAt ty ctx (leaf (withoutEntry slot l)) s := by
  obtain ⟨rfl, -⟩ := h
  have hwritten := hs.toLaid.leaf_written rfl
  exact hs.toLaid.pend fun e he => hwritten.encodes e (List.mem_of_mem_eraseIdx he)

theorem Sought.erase_miss (h : Sought t key s ctx l slot) (hs : Stored ty t s) (hkey : key.HasType ty)
    (hlength : encodedValueSize key ≤ kMaxIndexKeyBytes) (hmiss : ¬ Hit l slot key) :
    erase key s = .ok false s := by
  obtain ⟨rfl, -, hfound, hslot, -⟩ := h
  by_cases hnil : (ctx.plug (leaf l)).entries = []
  · have hsize : s.size = 0 := by rw [hs.size, hnil]; rfl
    rw [erase, get_bind_apply, if_pos hsize]
    rfl
  · rw [erase_found hs hkey hlength hnil (hs.toLaid.leaf_written rfl) hfound hslot]
    exact if_neg hmiss

end Sought

/-! ### Runs -/

/-- The indexes that insertions and erasures of keys of a type lead to. -/
inductive Reached (ty : DataType) : DiskBspIndex NodeMap → Prop where
  | created {s : DiskBspIndex NodeMap} : createEmpty (blank NodeMap.empty) = .ok () s → Reached ty s
  | built {entries : List (Value × UInt64)} {budget : MemoryBudget} {s : DiskBspIndex NodeMap} :
    Admissible ty entries → WithinBudget budget entries →
      bulkBuild budget entries (blank NodeMap.empty) = .ok () s → Reached ty s
  | inserted {key : Value} {rid : UInt64} {s s' : DiskBspIndex NodeMap} : Reached ty s →
    key.HasType ty → encodedValueSize key ≤ kMaxIndexKeyBytes → insert key rid s = .ok () s' →
      Reached ty s'
  | erased {key : Value} {gone : Bool} {s s' : DiskBspIndex NodeMap} : Reached ty s →
    key.HasType ty → encodedValueSize key ≤ kMaxIndexKeyBytes → erase key s = .ok gone s' →
      Reached ty s'

/-- An insertion that returns leads from tree to tree. -/
theorem Stored.inserted {t : BPlusTree LeafEntry H} (hs : Stored ty t s) (hkey : key.HasType ty)
    (hlength : encodedValueSize key ≤ kMaxIndexKeyBytes) (hrun : insert key rid s = .ok () s') :
    ∃ (h : Nat) (t' : BPlusTree LeafEntry h), Stored ty t' s' ∧
      t'.entries.Perm (entryOf key rid :: t.entries) := by
  by_cases hnil : t.entries = []
  · obtain ⟨s₁, l, hrun', hs', hentries⟩ := insert_empty rid hs hkey hlength hnil
    rw [hrun] at hrun'
    cases hrun'
    refine ⟨0, leaf l, hs', List.Perm.of_eq ?_⟩
    rw [entries_leaf, hentries, hnil]
  obtain ⟨ctx, l, slot, hsought⟩ := hs.sought hkey
  by_cases hhit : Hit l slot key
  · rw [hsought.insert_hit hs hkey hlength hhit] at hrun
    cases hrun
  · have hspec := hsought.insert_miss rid hs hkey hlength hnil hhit
    rw [hrun] at hspec
    obtain ⟨-, h, t', -, hs', -, hreforms⟩ := hspec
    refine ⟨h, t', hs', hreforms.perm.trans ?_⟩
    rw [← hsought.plug]
    exact plug_withEntryAt_perm hsought.le

/-- And an erasure. -/
theorem Stored.erased {t : BPlusTree LeafEntry H} (hs : Stored ty t s) (hkey : key.HasType ty)
    (hlength : encodedValueSize key ≤ kMaxIndexKeyBytes) {gone : Bool}
    (hrun : erase key s = .ok gone s') :
    ∃ (h : Nat) (t' : BPlusTree LeafEntry h), Stored ty t' s' ∧
      (t'.entries = t.entries ∨ ∃ e, e.value = key ∧ t.entries.Perm (e :: t'.entries)) := by
  obtain ⟨ctx, l, slot, hsought⟩ := hs.sought hkey
  by_cases hhit : Hit l slot key
  · have hspec := hsought.erase_hit hs hkey hlength hhit
    rw [hrun] at hspec
    obtain ⟨-, h, t', hs', -, hreforms, -⟩ := hspec
    obtain ⟨e, he, hvalue⟩ := hhit
    refine ⟨h, t', hs', .inr ⟨e, hvalue, ?_⟩⟩
    rw [← hsought.plug]
    exact (plug_withoutEntry_perm ctx he).trans (hreforms.perm.symm.cons e)
  · rw [hsought.erase_miss hs hkey hlength hhit] at hrun
    cases hrun
    exact ⟨H, t, hs, .inl rfl⟩

/-- Every index reached is a tree in its pages. -/
theorem Reached.stored (h : Reached ty s) : ∃ (H : Nat) (t : BPlusTree LeafEntry H), Stored ty t s := by
  induction h with
  | created hrun =>
    obtain ⟨s, l, hrun', hs, -⟩ := createEmpty_spec ty
    rw [hrun] at hrun'
    cases hrun'
    exact ⟨0, _, hs⟩
  | built hadmissible hbudget hrun =>
    obtain ⟨s, H, t, hrun', hs, -⟩ := bulkBuild_spec hadmissible hbudget
    rw [hrun] at hrun'
    cases hrun'
    exact ⟨H, t, hs.stored⟩
  | inserted _ hkey hlength hrun ih =>
    obtain ⟨H, t, hs⟩ := ih
    obtain ⟨h, t', hs', -⟩ := hs.inserted hkey hlength hrun
    exact ⟨h, t', hs'⟩
  | erased _ hkey hlength hrun ih =>
    obtain ⟨H, t, hs⟩ := ih
    obtain ⟨h, t', hs', -⟩ := hs.erased hkey hlength hrun
    exact ⟨h, t', hs'⟩

/-! ### When an update returns -/

section Returns
variable {t : BPlusTree LeafEntry H}

end Returns

/-! ### Indexes of long keys -/

/-- The first long keys, each its own record id. -/
def longEntries (n : Nat) : List (Value × UInt64) :=
  (List.range n).map fun i => (longKey i, UInt64.ofNat i)

theorem longKey_lt {i j : Nat} (hij : i < j) (hj : j < 64) : longKey i < longKey j := by
  have hkeys : ∀ j < 64, ∀ i < j, longKey i < longKey j := by decide +kernel
  exact hkeys j hj i hij

theorem longEntries_admissible {n : Nat} (hn : n ≤ 64) : Admissible .str (longEntries n) where
  ascending := by
    refine List.pairwise_map.mpr (List.pairwise_lt_range.imp_of_mem fun {i j} _ hj hij => ?_)
    exact longKey_lt hij ((List.mem_range.mp hj).trans_le hn)
  hasType e he := by
    obtain ⟨i, -, rfl⟩ := List.mem_map.mp he
    exact ⟨rfl, rfl⟩
  size e he := by
    obtain ⟨i, -, rfl⟩ := List.mem_map.mp he
    exact longKey_size i

theorem reached_longEntries {n : Nat} (hn : n ≤ 64) : ∃ (s : DiskBspIndex NodeMap) (H : Nat)
    (t : BPlusTree LeafEntry H), bulkBuild .unknown (longEntries n) (blank NodeMap.empty) = .ok () s ∧
      Reached .str s ∧ Stored .str t s ∧ t.entries = flatOf (longEntries n) := by
  have hadmissible := longEntries_admissible hn
  obtain ⟨s, H, t, hrun, hs, hentries, -⟩ := bulkBuild_spec hadmissible noBudget
  exact ⟨s, H, t, hrun, .built hadmissible noBudget hrun, hs.stored, hentries⟩

end CwDb.Storage.DiskBspIndex
