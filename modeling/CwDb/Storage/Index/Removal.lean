import CwDb.Storage.Index.Insertion
import CwDb.Storage.Index.LeafMend

/-! What an erasure does to the index.

The entry is taken out of the leaf its key leads to. The last entry of all leaves an empty
root behind; a leaf that is not too empty then is written, and a new smallest key is
carried up; any other leaf is mended (`Releases`). Whatever the order of the keys was, the
index is a tree again, with one entry less (`erase_stored`); the tree has no more inner
nodes and is not higher, and its leaves are known one by one (`Removed`). -/
namespace CwDb.Storage.DiskBspIndex
open Foundation BPlusTree

variable {ty : DataType} {H k : Nat} {s : DiskBspIndex NodeMap}

/-! ### The leaf without the entry -/

/-- A leaf without the entry of a slot. -/
def withoutEntry (slot : Nat) (l : Leaf LeafEntry) : Leaf LeafEntry :=
  { l with entries := l.entries.eraseIdx slot }

/-- The leaf is written or mended, and so is every node above. -/
def Releases (n : PageId) (slot : Nat) : {H : Nat} → Ctx LeafEntry H 0 → Leaf LeafEntry → Prop
  | _, .top, _ => True
  | _, .frame pid ks left right up, l =>
    if leafUnderflow l.entries false then LeafMends n up pid left right l
    else slot = 0 → MinFits (leaf l).minEntry (.frame pid ks left right up) (leaf l)

/-- The tree has no entry any more, or the leaf without the entry is released. -/
def Removes (n : PageId) (slot : Nat) (ctx : Ctx LeafEntry H 0) (l : Leaf LeafEntry) : Prop :=
  (ctx.plug (leaf l)).entries = [] ∨ Releases n slot ctx l

/-- The leaves then. -/
def releasedLeaves (n : PageId) : {H : Nat} → Ctx LeafEntry H 0 → Leaf LeafEntry → List (Leaf LeafEntry)
  | _, .top, l => [l]
  | _, .frame pid ks left right up, l =>
    if leafUnderflow l.entries false then mendedLeaves n up left right l
    else ((Ctx.frame pid ks left right up).plug (leaf l)).leaves

/-- The pages allocated. -/
def releasedPages : {H : Nat} → Ctx LeafEntry H 0 → Leaf LeafEntry → Nat
  | _, .top, _ => 0
  | _, .frame _ _ left right _, l =>
    if leafUnderflow l.entries false then redealtPages left right l else 0

/-- The index is a tree with these leaves, no more inner nodes and no more levels than
before. A root over one leaf is gone. -/
def Removed (ty : DataType) (n : PageId) (ctx : Ctx LeafEntry H 0) (l : Leaf LeafEntry)
    (s : DiskBspIndex NodeMap) : Prop :=
  ∃ (h : Nat) (T' : BPlusTree LeafEntry h), Stored ty T' s ∧ T'.leaves = releasedLeaves n ctx l ∧
    Reforms LeafEntry.value (ctx.plug (leaf l)) T' ∧ T'.inners ≤ (ctx.plug (leaf l)).inners ∧ h ≤ H ∧
    (H = 1 → (ctx.plug (leaf l)).leaves.length ≠ 1 → T'.leaves.length = 1 → h = 0) ∧
    s.pager.count = n + releasedPages ctx l

section Leaf
variable {l : Leaf LeafEntry} {slot : Nat}

theorem leafPayloadBytes_sublist {es es' : List LeafEntry} (h : es'.Sublist es) :
    leafPayloadBytes es' ≤ leafPayloadBytes es := by
  rw [leafPayloadBytes, leafPayloadBytes]
  exact Nat.add_le_add_left ((h.map _).sum_le_sum fun _ _ => Nat.zero_le _) 12

/-- A leaf still fits with an entry less. -/
theorem fits_withoutEntry (h : Fits (leaf l)) : Fits (leaf (withoutEntry slot l)) := by
  have hle := leafPayloadBytes_sublist (List.eraseIdx_sublist l.entries slot)
  have hfits : ¬ kPageSize < leafPayloadBytes l.entries := of_decide_eq_false h
  exact decide_eq_false fun hover => hfits (lt_of_lt_of_le hover hle)

theorem entries_ne_nil_of_not_underflow {es : List LeafEntry}
    (h : ¬ leafUnderflow es false = true) : es ≠ [] := by
  rintro rfl
  exact h rfl

end Leaf

section EraseAt
variable {ctx : Ctx LeafEntry H 0} {l : Leaf LeafEntry} {p : ParsedPage} {slot : Nat}

/-- Where there are no entries at all, there is no other leaf. -/
theorem leaves_of_empty (hp : PendingAt ty ctx (leaf l) s) (hnil : (ctx.plug (leaf l)).entries = []) :
    (ctx.plug (leaf l)).leaves = [l] := by
  have hnodup := leafIds_nodup hp.nodup
  have hothers : ∀ m ∈ (ctx.plug (leaf l)).leaves, m.id = l.id := by
    intro m hm
    by_contra hne
    refine hp.filled m hm hne ?_
    exact List.flatMap_eq_nil_iff.mp hnil m hm
  rw [Ctx.leaves_plug, leaves_leaf] at hnodup hothers ⊢
  rw [List.append_assoc, List.map_append, List.map_append, List.map_singleton,
    List.singleton_append] at hnodup
  have hbefore : ctx.leavesBefore = [] := by
    refine List.eq_nil_iff_forall_not_mem.mpr fun m hm => ?_
    refine (List.nodup_append.mp hnodup).2.2 _ (List.mem_map_of_mem hm) _ List.mem_cons_self ?_
    exact hothers m (by simp [hm])
  have hafter : ctx.leavesAfter = [] := by
    refine List.eq_nil_iff_forall_not_mem.mpr fun m hm => ?_
    refine (List.nodup_cons.mp (List.nodup_append.mp hnodup).2.1).1 ?_
    exact List.mem_map.mpr ⟨m, hm, hothers m (by simp [hm])⟩
  rw [hbefore, hafter]
  rfl

/-- An erasure that can be carried out: the leaf is released, or there is no other. -/
theorem Removes.releases {n : PageId} (h : Removes n slot ctx l) (hp : PendingAt ty ctx (leaf l) s) :
    Releases n slot ctx l ∨ (ctx.plug (leaf l)).leaves = [l] := by
  rcases h with hnil | h
  · exact .inr (leaves_of_empty hp hnil)
  · exact .inl h

/-- The last entry is gone: the leaf is the root now. -/
theorem stored_empty (hp : PendingAt ty ctx (leaf l) s) (hnil : (ctx.plug (leaf l)).entries = [])
    (hsize : s.size = 0) :
    Stored ty (leaf l) { s.putNode (.leaf l) with
      rootPage := l.id, firstLeafPage := l.id, pager := (s.putNode (.leaf l)).pager.put 0 none } := by
  have hleaves := leaves_of_empty hp hnil
  have hentries : l.entries = [] :=
    List.flatMap_eq_nil_iff.mp hnil l (by rw [hleaves]; exact List.mem_singleton_self l)
  have hlinked := hp.linked
  rw [hleaves] at hlinked
  have hfits : NodeMap.overflows (pageOf (.leaf l)) = false := by
    rw [overflows_leaf, hentries]
    rfl
  have hpos : 0 < l.id := hp.pos
  refine ⟨⟨⟨?_, trivial, fun hne => ?_, fun _ => rfl, ⟨rfl, hlinked.2⟩⟩, rfl, fun r hr => ?_⟩, ?_⟩
  · rw [ids_leaf]
    exact Multiset.nodup_singleton _
  · rw [entries_leaf] at hne
    exact absurd hentries hne
  · rw [records_leaf] at hr
    rw [Multiset.mem_singleton.mp hr]
    exact (written_put (r := .leaf l) hpos hfits hp.encodes).superblock
  · rw [entries_leaf, hentries]
    exact hsize

/-- A leaf is written, and its smallest key carried up if it is another. -/
theorem release_written (hp : PendingAt ty ctx (leaf l) s) (hpage : Shows p (.leaf l))
    (hne : l.entries ≠ []) (hfits : Fits (leaf l)) :
    ReturnsIff (slot = 0 → MinFits (leaf l).minEntry ctx (leaf l))
      (fun s' => ∃ s₀ : DiskBspIndex NodeMap, Kept ty (ctx.plug (leaf l)) s.pager.count s.size s₀ ∧
        s' = { s₀ with pager := s₀.pager.put 0 none })
      ((writePage p >>= fun _ =>
        if slot = 0 && !l.entries.isEmpty then
          propagateSubtreeMinChange l.id (l.id :: ctx.path) >>= fun _ => writeSuperblock
        else writeSuperblock) s) := by
  have hfilled : Filled (ctx.plug (leaf l)) := by
    intro m hm
    by_cases hid : m.id = l.id
    · have hsame := hp.eq_of_id (leaf_mem_records hm) hp.mem hid
      cases hsame
      exact hne
    · exact hp.filled m hm hid
  have hlaid := hp.settle hfits hfilled
  have hcount : (s.putNode (leaf l).rootRecord).pager.count = s.pager.count := max_eq_left hp.lt
  have hsome : l.entries.isEmpty = false := by simpa using hne
  rw [bind_ok (writePage_shows hpage hfits), hsome]
  by_cases hzero : slot = 0
  · rw [if_pos (by simp [hzero])]
    have hpropagate := propagateSubtreeMinChange_spec ctx hlaid (hlaid.planted
      (hfilled.entries_ne_nil hp.jointed.branching))
    rw [hcount] at hpropagate
    exact ReturnsIff.bind (hpropagate.imp ⟨fun h _ => h, fun h => h hzero⟩ fun _ h => h)
      fun _ s₀ h => ⟨_, _, rfl, s₀, h, rfl⟩
  · rw [if_neg (by simp [hzero])]
    exact ⟨fun h => absurd h hzero, _, ⟨_, hlaid, .refl _, rfl, rfl, hcount⟩, rfl⟩

/-- Where the leaf is the root or not too empty, it is written. -/
theorem releases_written (slot : Nat) (hkept : ctx.path = [] ∨ leafUnderflow l.entries false = false)
    (n : PageId) :
    (Releases n slot ctx l ↔ (slot = 0 → MinFits (leaf l).minEntry ctx (leaf l))) ∧
      releasedLeaves n ctx l = (ctx.plug (leaf l)).leaves ∧ releasedPages ctx l = 0 := by
  cases ctx with
  | top =>
    rw [Releases, releasedLeaves, releasedPages, MinFits, Ctx.plug, leaves_leaf]
    exact ⟨⟨fun _ _ => trivial, fun _ => trivial⟩, rfl, rfl⟩
  | frame pid ks left right up =>
    have hfull : ¬ leafUnderflow l.entries false = true := by
      rcases hkept with hpath | hfull
      · rw [Ctx.path] at hpath
        cases hpath
      · rw [hfull]
        exact Bool.false_ne_true
    rw [Releases, releasedLeaves, releasedPages, if_neg hfull, if_neg hfull, if_neg hfull]
    exact ⟨Iff.rfl, rfl, rfl⟩

/-- The only leaf stays. -/
theorem releases_single (hleaves : (ctx.plug (leaf l)).leaves = [l]) {n : PageId} :
    releasedLeaves n ctx l = [l] ∧ releasedPages ctx l = 0 := by
  cases ctx with
  | top =>
    rw [releasedLeaves, releasedPages]
    exact ⟨rfl, rfl⟩
  | frame pid ks left right up =>
    have hall : ((Ctx.frame pid ks left right up).plug (leaf l)).leaves = up.leavesWith left right [l] := by
      rw [Ctx.plug, ← Ctx.leaves_plug_leaves up pid ks]
      simp [leavesAt]
    have hlength := congrArg List.length (hall.symm.trans hleaves)
    rw [Ctx.leavesWith, List.length_append, List.length_append, List.length_append, List.length_append,
      length_leavesOf, length_leavesOf, List.length_singleton] at hlength
    have hl : left = [] := List.length_eq_zero_iff.mp (by omega)
    have hr : right = [] := List.length_eq_zero_iff.mp (by omega)
    subst hl hr
    rw [releasedLeaves, releasedPages]
    by_cases hunder : leafUnderflow l.entries false = true
    · rw [if_pos hunder, if_pos hunder]
      exact ⟨hall.symm.trans hleaves, rfl⟩
    · rw [if_neg hunder, if_neg hunder]
      exact ⟨hleaves, rfl⟩

/-- The entry taken out, and what becomes of the leaf. -/
theorem eraseAt_spec (hp : PendingAt ty ctx (leaf l) s)
    (hpage : Shows { p with leafEntries := p.leafEntries.eraseIdx slot } (.leaf l))
    (hfits : Fits (leaf l)) (hsize : s.size = (ctx.plug (leaf l)).entries.length + 1) :
    ReturnsIff (Removes s.pager.count slot ctx l) (Removed ty s.pager.count ctx l)
      (erase.eraseAt p (l.id :: ctx.path) slot s) := by
  have hid : p.pageId = l.id := hpage.pageId
  have htype : p.type = .leaf := hpage.leaf.1
  have hentries : p.leafEntries.eraseIdx slot = l.entries := hpage.leaf.2.1
  have hnext : p.nextLeaf = l.next := hpage.leaf.2.2
  have hone : s.size - 1 = (ctx.plug (leaf l)).entries.length := by
    rw [hsize, Nat.add_sub_cancel]
  have hstored : ∀ {h : Nat} {T' : BPlusTree LeafEntry h} {s₀ : DiskBspIndex NodeMap},
      Laid ty T' s₀ → s₀.size = s.size - 1 → Reforms LeafEntry.value (ctx.plug (leaf l)) T' →
        Stored ty T' { s₀ with pager := s₀.pager.put 0 none } := by
    intro h T' s₀ hlaid hcount hreforms
    refine ⟨hlaid.superblock, ?_⟩
    show s₀.size = _
    rw [hcount, hone, hreforms.perm.length_eq]
  have hsuper : ∀ {s₀ : DiskBspIndex NodeMap} {m : Nat}, s₀.pager.count = s.pager.count + m →
      (s₀.pager.put 0 none).count = s.pager.count + m := by
    intro s₀ m hcount
    have hpos := hp.count_pos
    show max s₀.pager.count 1 = _
    rw [hcount]
    omega
  have hp1 := hp.resize (s.size - 1)
  rw [erase.eraseAt, modify_bind_apply, get_bind_apply]
  dsimp only
  rw [hentries, hid] at hpage ⊢
  by_cases hnil : (ctx.plug (leaf l)).entries = []
  · -- the last entry: the leaf becomes the root
    have hzero : s.size - 1 = 0 := by rw [hone, hnil]; rfl
    have hleaves := leaves_of_empty hp hnil
    have hempty : l.entries = [] :=
      List.flatMap_eq_nil_iff.mp hnil l (by rw [hleaves]; exact List.mem_singleton_self l)
    have hshows : Shows { p with pageId := l.id, leafEntries := [] } (.leaf l) :=
      shows_leaf htype rfl hempty.symm hnext
    obtain ⟨hreleased, hpages⟩ := releases_single hleaves (n := s.pager.count)
    have hall : (leaf l).entries = (ctx.plug (leaf l)).entries := by
      rw [hnil, entries_leaf, hempty]
    rw [if_pos hzero, bind_ok (writePage_shows hshows hfits)]
    refine ⟨.inl hnil, 0, leaf l, stored_empty hp1 hnil hzero, ?_, ⟨List.Perm.of_eq hall,
      fun hs => ⟨⟨trivial, hall ▸ hs.ascending⟩, hall⟩⟩, Nat.zero_le _, Nat.zero_le H,
      fun _ _ _ => rfl, ?_⟩
    · rw [hreleased, leaves_leaf]
    · rw [hpages]
      exact hsuper (max_eq_left hp.lt : (putNode _ _).pager.count = _)
  · have hmany : s.size - 1 ≠ 0 := by
      rw [hone]
      exact fun h => hnil (List.length_eq_zero_iff.mp h)
    rw [if_neg hmany, Removes, or_iff_right hnil]
    by_cases hkept : ctx.path = [] ∨ leafUnderflow l.entries false = false
    · -- the leaf stays
      have hbranch : (decide (l.id = s.rootPage) || !leafUnderflow l.entries false) = true := by
        rcases hkept with hpath | hfull
        · cases ctx with
          | top =>
            rw [hp.root, Ctx.plug, rootId_leaf]
            simp
          | frame pid ks left right up =>
            rw [Ctx.path] at hpath
            cases hpath
        · rw [hfull, Bool.not_false, Bool.or_true]
      have hne : l.entries ≠ [] := by
        rcases hkept with hpath | hfull
        · cases ctx with
          | top =>
            rw [Ctx.plug, entries_leaf] at hnil
            exact hnil
          | frame pid ks left right up =>
            rw [Ctx.path] at hpath
            cases hpath
        · exact entries_ne_nil_of_not_underflow (by rw [hfull]; exact Bool.false_ne_true)
      obtain ⟨hreleases, hleaves, hpages⟩ := releases_written slot hkept s.pager.count
      rw [if_pos hbranch]
      refine (release_written hp1 hpage hne hfits).imp hreleases.symm fun s' h => ?_
      obtain ⟨s₀, ⟨T', hlaid, hregroups, hinners, hsize', hcount⟩, rfl⟩ := h
      refine ⟨H, T', hstored hlaid hsize' hregroups.reforms, by rw [hleaves, hregroups.leaves],
        hregroups.reforms, hinners.le, Nat.le_refl H, fun _ hmore hone' => ?_, ?_⟩
      · rw [hregroups.leaves] at hone'
        exact absurd hone' hmore
      · rw [hpages]
        exact hsuper hcount
    · -- the leaf is too empty
      obtain ⟨hpath, hunder⟩ := not_or.mp hkept
      rw [Bool.not_eq_false] at hunder
      cases ctx with
      | top => exact absurd (by rw [Ctx.path]) hpath
      | frame pid ks left right up =>
        have hnotRoot : l.id ≠ s.rootPage := by
          rw [hp.root]
          exact rootId_ne_root hp.nodup
        rw [if_neg (by simp [hnotRoot, hunder]), Releases, if_pos hunder, Ctx.path]
        refine ReturnsIff.bind (fixLeafUnderflow_spec hp1 hpage) fun _ s₀ h => ?_
        obtain ⟨h, T', hlaid, hleaves, hreforms, hinners, hheight, hflat, hsize', hcount⟩ := h
        refine ⟨_, _, rfl, h, T', hstored hlaid hsize' hreforms, ?_, hreforms, hinners, hheight,
          fun h1 _ hone' => hflat h1 (by rw [← hleaves, hone']), ?_⟩
        · rw [hleaves, releasedLeaves, if_pos hunder]
        · rw [releasedPages, if_pos hunder]
          exact hsuper hcount

end EraseAt

section Erase
variable {t : BPlusTree LeafEntry H} {ctx : Ctx LeafEntry H 0} {l : Leaf LeafEntry} {key : Value}
  {slot : Nat}

/-- What `erase` does once it found the leaf and the slot. -/
theorem erase_found (hs : Stored ty t s) (hkey : key.HasType ty)
    (hlength : encodedValueSize key ≤ kMaxIndexKeyBytes) (hne : t.entries ≠ [])
    (hwritten : Written ty s.pager (.leaf l))
    (hfound : findLeaf key s = .ok (pageOf (.leaf l), l.id :: ctx.path) s)
    (hslot : lowerBoundSlot (pageOf (.leaf l)) key = .ok slot) :
    erase key s = if ∃ e ∈ l.entries[slot]?, e.value = key then
      (erase.eraseAt (pageOf (.leaf l)) (l.id :: ctx.path) slot >>= fun _ => pure true) s
      else .ok false s := by
  have hsize : s.size ≠ 0 := by
    rw [hs.size]
    exact fun h => hne (List.length_eq_zero_iff.mp h)
  rw [erase, get_bind_apply, if_neg hsize, bind_ok hfound]
  dsimp only
  rw [hslot, bind_ok (fromExcept_ok_apply _ _)]
  have hentries : (pageOf (.leaf l)).leafEntries = l.entries := rfl
  rw [hentries]
  cases hexisting : l.entries[slot]? with
  | none =>
    rw [if_neg]
    · rfl
    · intro h
      obtain ⟨e, he, -⟩ := h
      cases he
  | some existing =>
    have hequal := keysEqual_encodes (hwritten.encodes existing (List.mem_of_getElem? hexisting))
      (entryOf_encodes 0 hkey hlength)
    rw [entryOf_value 0 hlength] at hequal
    dsimp only
    rw [makeEntry_ok 0 hlength, bind_ok (fromExcept_ok_apply _ _), hequal,
      bind_ok (fromExcept_ok_apply _ _)]
    by_cases hsame : existing.value = key
    · rw [decide_eq_true hsame, if_neg (by decide), if_pos ⟨existing, rfl, hsame⟩]
    · rw [decide_eq_false hsame, if_pos (by decide), if_neg]
      · rfl
      · intro h
        obtain ⟨e, he, hekey⟩ := h
        cases he
        exact hsame hekey

/-- The entries without the one of a slot. -/
theorem plug_withoutEntry_perm (ctx : Ctx LeafEntry H 0) {e : LeafEntry} (he : e ∈ l.entries[slot]?) :
    (ctx.plug (leaf l)).entries.Perm (e :: (ctx.plug (leaf (withoutEntry slot l))).entries) := by
  obtain ⟨hlt, rfl⟩ := List.getElem?_eq_some_iff.mp he
  have hperm : l.entries.Perm (l.entries[slot] :: l.entries.eraseIdx slot) :=
    (List.getElem_cons_eraseIdx_perm hlt).symm
  rw [Ctx.entries_plug, Ctx.entries_plug, entries_leaf, entries_leaf, List.append_assoc,
    List.append_assoc]
  exact ((hperm.append_right _).append_left _).trans List.perm_middle

/-- A key in its slot is erased, if what is left can be mended. -/
theorem erase_stored (hs : Stored ty (ctx.plug (leaf l)) s) (hkey : key.HasType ty)
    (hlength : encodedValueSize key ≤ kMaxIndexKeyBytes)
    (hfound : findLeaf key s = .ok (pageOf (.leaf l), l.id :: ctx.path) s)
    (hslot : lowerBoundSlot (pageOf (.leaf l)) key = .ok slot)
    (hthere : ∃ e ∈ l.entries[slot]?, e.value = key) :
    ReturnsIff (Removes s.pager.count slot ctx (withoutEntry slot l))
      (Removed ty s.pager.count ctx (withoutEntry slot l)) (erase key s) := by
  have hwritten := hs.toLaid.leaf_written rfl
  obtain ⟨e, he, hvalue⟩ := hthere
  have hperm := plug_withoutEntry_perm ctx he
  have hne : (ctx.plug (leaf l)).entries ≠ [] := by
    intro hnil
    rw [hnil] at hperm
    exact List.cons_ne_nil _ _ hperm.nil_eq.symm
  rw [erase_found hs hkey hlength hne hwritten hfound hslot, if_pos ⟨e, he, hvalue⟩]
  have hp : PendingAt ty ctx (leaf (withoutEntry slot l)) s :=
    hs.toLaid.pend fun x hx => hwritten.encodes x (List.mem_of_mem_eraseIdx hx)
  refine ReturnsIff.bind (eraseAt_spec (p := pageOf (.leaf l)) (l := withoutEntry slot l) hp
    (shows_leaf rfl rfl rfl rfl) (fits_withoutEntry hwritten.fits) ?_) fun _ s' h => ⟨true, s', rfl, h⟩
  rw [hs.size, hperm.length_eq, List.length_cons]

/-! ### In order -/

/-- Without an entry the rest stays in order. -/
theorem withoutEntry_sorted (hs : Sorted LeafEntry.value (ctx.plug (leaf l))) :
    Sorted LeafEntry.value (ctx.plug (leaf (withoutEntry slot l))) := by
  have hsub : (withoutEntry slot l).entries.Sublist l.entries := List.eraseIdx_sublist _ _
  constructor
  · refine ctx.ordered_replace hs.ordered trivial fun e he => ?_
    rw [entries_leaf] at he
    exact ctx.admits_of_ordered hs.ordered e (by rw [entries_leaf]; exact hsub.subset he)
  · have hasc := hs.ascending
    rw [Ctx.entries_plug, entries_leaf] at hasc ⊢
    exact hasc.sublist ((hsub.append_left _).append_right _)

end Erase

end CwDb.Storage.DiskBspIndex
