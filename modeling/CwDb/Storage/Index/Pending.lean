import CwDb.Storage.Index.Layout

/-! An index in the middle of an operation.

While it inserts or erases, the code holds one node that its page does not show yet.
The tree with that node in it is what the operation works on (`Pending`): it is
linked, and all its other nodes are written. Dealing out the children around the node
anew, in pages written for them, leaves their parent pending (`Pending.rebuild`); a
pending node that fits is written, and the index is laid out (`Pending.settle`).

None of this looks at the order of the keys. What is in order stays in order, since
the parent gets its children's minima for separators (`Pending.reforms`). -/
namespace CwDb.Storage.DiskBspIndex
open Foundation BPlusTree

variable {ty : DataType} {H k : Nat}

/-! ### Nodes written one after the other -/

def putNode (s : DiskBspIndex NodeMap) (r : NodeRecord LeafEntry) : DiskBspIndex NodeMap :=
  { s with pager := s.pager.put r.id (some (pageOf r)) }

def putNodes (s : DiskBspIndex NodeMap) : List (NodeRecord LeafEntry) → DiskBspIndex NodeMap
  | [] => s
  | r :: rs => putNodes (s.putNode r) rs

section PutNodes
variable {s : DiskBspIndex NodeMap} {x : NodeRecord LeafEntry}

@[simp] theorem putNodes_cons (r : NodeRecord LeafEntry) (rs : List (NodeRecord LeafEntry)) :
    putNodes s (r :: rs) = putNodes (s.putNode r) rs := rfl

@[simp] theorem putNodes_rootPage (rs : List (NodeRecord LeafEntry)) :
    (putNodes s rs).rootPage = s.rootPage := by
  induction rs generalizing s with
  | nil => rfl
  | cons r rs ih => exact ih

@[simp] theorem putNodes_firstLeafPage (rs : List (NodeRecord LeafEntry)) :
    (putNodes s rs).firstLeafPage = s.firstLeafPage := by
  induction rs generalizing s with
  | nil => rfl
  | cons r rs ih => exact ih

@[simp] theorem putNodes_size (rs : List (NodeRecord LeafEntry)) :
    (putNodes s rs).size = s.size := by
  induction rs generalizing s with
  | nil => rfl
  | cons r rs ih => exact ih

theorem putNodes_count_le (rs : List (NodeRecord LeafEntry)) :
    s.pager.count ≤ (putNodes s rs).pager.count := by
  induction rs generalizing s with
  | nil => exact Nat.le_refl _
  | cons r rs ih =>
    have hone : s.pager.count ≤ (s.putNode r).pager.count := le_max_left _ _
    exact hone.trans ih

/-- Pages of the store, written: no page is new. -/
theorem putNodes_count {rs : List (NodeRecord LeafEntry)} (h : ∀ r ∈ rs, r.id < s.pager.count) :
    (putNodes s rs).pager.count = s.pager.count := by
  induction rs generalizing s with
  | nil => rfl
  | cons r rs ih =>
    have hone : (s.putNode r).pager.count = s.pager.count := by
      have hr := h r List.mem_cons_self
      show max s.pager.count (r.id + 1) = _
      exact max_eq_left hr
    rw [putNodes_cons, ih fun x hx => hone.symm ▸ h x (List.mem_cons_of_mem _ hx), hone]

theorem written_putNodes_ne (hx : Written ty s.pager x) {rs : List (NodeRecord LeafEntry)}
    (hne : ∀ r ∈ rs, x.id ≠ r.id) : Written ty (putNodes s rs).pager x := by
  induction rs generalizing s with
  | nil => exact hx
  | cons r rs ih =>
    exact ih (s := s.putNode r) (hx.put (hne r List.mem_cons_self) _)
      fun y hy => hne y (List.mem_cons_of_mem _ hy)

theorem written_putNodes_mem {rs : List (NodeRecord LeafEntry)} (hx : x ∈ rs)
    (hunique : ∀ r ∈ rs, r.id = x.id → r = x) (hpos : 0 < x.id)
    (hfits : NodeMap.overflows (pageOf x) = false) (hencodes : ∀ e ∈ x.keys, e.Encodes ty) :
    Written ty (putNodes s rs).pager x := by
  induction rs generalizing s with
  | nil => cases hx
  | cons r rs ih =>
    by_cases hmem : x ∈ rs
    · exact ih hmem fun y hy => hunique y (List.mem_cons_of_mem _ hy)
    · have hrx : r = x := by
        rcases List.mem_cons.mp hx with rfl | hx
        · rfl
        · exact absurd hx hmem
      subst hrx
      refine written_putNodes_ne (s := s.putNode r) (written_put hpos hfits hencodes) fun y hy heq => ?_
      exact hmem (hunique y (List.mem_cons_of_mem _ hy) heq.symm ▸ hy)

end PutNodes

/-! ### Nodes in memory -/

/-- A node held in memory: this is what its page will show. -/
def Shows (p : ParsedPage) (r : NodeRecord LeafEntry) : Prop := p.stored = pageOf r

section Shows
variable {p : ParsedPage} {r : NodeRecord LeafEntry} {l : Leaf LeafEntry} {id : Nat}
  {ks : List LeafEntry} {cs : List Nat} {s : DiskBspIndex NodeMap}

/-- The node fits its page. -/
def Fits (x : BPlusTree LeafEntry k) : Prop := NodeMap.overflows (pageOf x.rootRecord) = false

instance (x : BPlusTree LeafEntry k) : Decidable (Fits x) := inferInstanceAs (Decidable (_ = _))

/-- An inner node in memory with these children, whatever its separators. -/
structure Heads (p : ParsedPage) (id : PageId) (cs : List PageId) : Prop where
  type : p.type ≠ .leaf
  pageId : p.pageId = id
  children : p.children = cs

theorem overflows_leaf (l : Leaf LeafEntry) :
    NodeMap.overflows (pageOf (.leaf l)) = leafOverflow l.entries := rfl

theorem overflows_inner (id : Nat) (ks : List LeafEntry) (cs : List Nat) :
    NodeMap.overflows (pageOf (.inner id ks cs)) = innerOverflow ks cs := by
  show decide (innerPayloadBytes (ks.map LeafEntry.asSeparator) _ > _) = _
  rw [innerPayloadBytes_asSeparator]
  rfl

theorem shows_leaf (htype : p.type = .leaf) (hid : p.pageId = l.id)
    (hentries : p.leafEntries = l.entries) (hnext : p.nextLeaf = l.next) : Shows p (.leaf l) := by
  rw [Shows, ParsedPage.stored, if_pos htype, hid, hentries, hnext]
  rfl

theorem shows_inner (htype : p.type ≠ .leaf) (hid : p.pageId = id) (hkeys : p.innerKeys = ks)
    (hchildren : p.children = cs) : Shows p (.inner id ks cs) := by
  rw [Shows, ParsedPage.stored, if_neg htype, hid, hkeys, hchildren]
  rfl

theorem shows_pageOf (r : NodeRecord LeafEntry) : Shows (pageOf r) r := by
  cases r with
  | leaf l => exact shows_leaf rfl rfl rfl rfl
  | inner id ks cs =>
    show ParsedPage.stored _ = _
    rw [ParsedPage.stored, if_neg NodeType.noConfusion]
    simp only [pageOf, List.length_map, List.map_map]
    rfl

theorem Shows.pageId (h : Shows p r) : p.pageId = r.id := by
  rw [← stored_pageId, h, pageOf_pageId]

theorem Shows.overflows (h : Shows p r) :
    NodeMap.overflows p = NodeMap.overflows (pageOf r) := by
  rw [← overflows_stored, h]

theorem Shows.leaf (h : Shows p (.leaf l)) :
    p.type = .leaf ∧ p.leafEntries = l.entries ∧ p.nextLeaf = l.next := by
  by_cases htype : p.type = .leaf
  · rw [Shows, ParsedPage.stored, if_pos htype] at h
    exact ⟨htype, congrArg ParsedPage.leafEntries h, congrArg ParsedPage.nextLeaf h⟩
  · rw [Shows, ParsedPage.stored, if_neg htype] at h
    exact NodeType.noConfusion (congrArg ParsedPage.type h)

theorem Shows.heads (h : Shows p (.inner id ks cs)) : Heads p id cs := by
  have hid : p.pageId = id := h.pageId
  by_cases htype : p.type = .leaf
  · rw [Shows, ParsedPage.stored, if_pos htype] at h
    exact NodeType.noConfusion (congrArg ParsedPage.type h)
  · rw [Shows, ParsedPage.stored, if_neg htype] at h
    exact ⟨htype, hid, congrArg ParsedPage.children h⟩

theorem Shows.innerOverflow (h : Shows p (.inner id ks cs)) :
    innerOverflow p.innerKeys p.children = innerOverflow ks cs := by
  rw [← overflows_inner id ks cs, ← h.overflows, NodeMap.overflows, if_neg h.heads.type]

/-- A node in memory overflows if the node does not fit. -/
theorem Shows.overflow_iff {x : BPlusTree LeafEntry (k + 1)} (h : Shows p x.rootRecord) :
    Storage.innerOverflow p.innerKeys p.children = true ↔ ¬ Fits x := by
  rw [eq_node x] at h
  rw [h.innerOverflow, ← overflows_inner x.rootId, Fits, Bool.not_eq_false]
  rfl

theorem writePage_shows (hp : Shows p r) (hfits : NodeMap.overflows (pageOf r) = false) :
    writePage p s = .ok () (s.putNode r) := by
  rw [writePage_fits (hp.overflows.trans hfits), hp, hp.pageId]
  rfl

theorem writePage_shows_overflows (hp : Shows p r) (hfits : NodeMap.overflows (pageOf r) = true) :
    ∃ e, writePage p s = .error e s :=
  ⟨_, writePage_overflows (hp.overflows.trans hfits)⟩

/-- A page is written if the node fits it, and what follows goes on from there. -/
theorem writePage_then {f : PUnit → IndexM NodeMap PUnit} {P : Prop}
    {Q : DiskBspIndex NodeMap → Prop} (hp : Shows p r)
    (hf : NodeMap.overflows (pageOf r) = false → ReturnsIff P Q (f ⟨⟩ (s.putNode r))) :
    ReturnsIff (NodeMap.overflows (pageOf r) = false ∧ P) Q ((writePage p >>= f) s) := by
  by_cases hfits : NodeMap.overflows (pageOf r) = false
  · rw [bind_ok (writePage_shows hp hfits)]
    exact (hf hfits).imp (and_iff_right hfits).symm fun _ h => h
  · obtain ⟨e, hthrow⟩ := writePage_shows_overflows (s := s) hp ((Bool.not_eq_false _).mp hfits)
    rw [bind_error hthrow]
    exact fun h => hfits h.1

end Shows

/-- A node in memory gets its children's minima for separators. -/
theorem rebuild_heads {p : ParsedPage} {id : PageId} {cs : List (BPlusTree LeafEntry k)}
    {s : DiskBspIndex NodeMap} (h : Heads p id (cs.map rootId))
    (hcs : ∀ c ∈ cs, Planted ty c s.pager) :
    ∃ p', rebuildInternalKeys p s = .ok p' s ∧ Shows p' (above id cs).rootRecord :=
  ⟨_, rebuildInternalKeys_planted h.type h.children fun c hc => hcs c (List.mem_of_mem_tail hc),
    shows_inner h.type h.pageId rfl h.children⟩

/-- An element is found at its first place. -/
theorem idxOf?_hole {left right : List Nat} {a : Nat} (h : a ∉ left) :
    (left ++ a :: right).idxOf? a = some left.length := by
  induction left with
  | nil => simp [List.idxOf?_cons]
  | cons b left ih =>
    have hb : b ≠ a := fun heq => h (heq ▸ List.mem_cons_self)
    rw [List.cons_append, List.idxOf?_cons, if_neg (by simpa using hb),
      ih fun hmem => h (List.mem_cons_of_mem _ hmem)]
    rfl

/-! ### Pending nodes -/

/-- The index is this tree, but for the page of one node: that one may hold anything.
Only the pending node may be a leaf without entries. -/
structure Pending (ty : DataType) (T : BPlusTree LeafEntry H) (r : NodeRecord LeafEntry)
    (s : DiskBspIndex NodeMap) : Prop where
  nodup : T.ids.Nodup
  jointed : Jointed T
  filled : ∀ l ∈ T.leaves, l.id ≠ r.id → l.entries ≠ []
  linked : Links s.firstLeafPage T.leaves 0
  root : s.rootPage = T.rootId
  mem : r ∈ T.records
  pos : 0 < r.id
  lt : r.id < s.pager.count
  encodes : ∀ e ∈ r.keys, e.Encodes ty
  written : ∀ x ∈ T.records, x.id ≠ r.id → Written ty s.pager x

/-- A node pending in its place. -/
abbrev PendingAt (ty : DataType) (ctx : Ctx LeafEntry H k) (x : BPlusTree LeafEntry k)
    (s : DiskBspIndex NodeMap) : Prop := Pending ty (ctx.plug x) x.rootRecord s

namespace Pending
variable {T : BPlusTree LeafEntry H} {r : NodeRecord LeafEntry} {s : DiskBspIndex NodeMap}

/-- A record is told by its id. -/
theorem eq_of_id (hp : Pending ty T r s) {x y : NodeRecord LeafEntry} (hx : x ∈ T.records)
    (hy : y ∈ T.records) (h : x.id = y.id) : x = y :=
  Multiset.inj_on_of_nodup_map hp.nodup x hx y hy h

theorem id_lt (hp : Pending ty T r s) : ∀ i ∈ T.ids, i < s.pager.count := by
  intro i hi
  obtain ⟨x, hx, rfl⟩ := Multiset.mem_map.mp hi
  by_cases hxr : x.id = r.id
  · rw [hxr]
    exact hp.lt
  · exact (hp.written x hx hxr).lt

theorem id_pos (hp : Pending ty T r s) : ∀ i ∈ T.ids, 0 < i := by
  intro i hi
  obtain ⟨x, hx, rfl⟩ := Multiset.mem_map.mp hi
  by_cases hxr : x.id = r.id
  · rw [hxr]
    exact hp.pos
  · exact (hp.written x hx hxr).pos

theorem count_pos (hp : Pending ty T r s) : 0 < s.pager.count := (Nat.zero_le _).trans_lt hp.lt

/-- A page allocated changes nothing of the tree. -/
theorem allocate (hp : Pending ty T r s) :
    Pending ty T r { s with pager := s.pager.put s.pager.count none } where
  nodup := hp.nodup
  jointed := hp.jointed
  filled := hp.filled
  linked := hp.linked
  root := hp.root
  mem := hp.mem
  pos := hp.pos
  lt := hp.lt.trans_le (le_max_left _ _)
  encodes := hp.encodes
  written x hx hxr := (hp.written x hx hxr).put (hp.id_lt _ (mem_ids hx)).ne none

/-- Subtrees without the pending node can be looked into. -/
theorem planted {ctx : Ctx LeafEntry H k} {t : BPlusTree LeafEntry k}
    (hp : Pending ty (ctx.plug t) r s) (hr : r.id ∉ t.ids) : Planted ty t s.pager where
  written x hx := hp.written x (Ctx.records_hole hx) fun heq => hr (heq ▸ mem_ids hx)
  nodup := by
    have hnodup := hp.nodup
    rw [Ctx.ids_plug] at hnodup
    exact (Multiset.nodup_add.mp hnodup).2.1
  branching := (ctx.jointed_hole hp.jointed).branching
  filled l hl := hp.filled l (Ctx.leaves_hole hl) fun heq => hr (heq ▸ leaf_id_mem_ids hl)

/-- The pending node, written. -/
theorem settle (hp : Pending ty T r s) (hfits : NodeMap.overflows (pageOf r) = false)
    (hfilled : Filled T) : Laid ty T (s.putNode r) where
  shape :=
    { nodup := hp.nodup
      jointed := hp.jointed
      filled := fun _ => hfilled
      empty := fun hnil => absurd hnil (hfilled.entries_ne_nil hp.jointed.branching)
      linked := hp.linked }
  root := hp.root
  written x hx := by
    by_cases hxr : x.id = r.id
    · rw [hp.eq_of_id hx hp.mem hxr]
      exact written_put hp.pos hfits hp.encodes
    · exact (hp.written x hx hxr).put hxr _

/-- A node that is not pending is read back. -/
theorem read (hp : Pending ty T r s) {x : NodeRecord LeafEntry} (hx : x ∈ T.records)
    (hxr : x.id ≠ r.id) : readPage x.id s = .ok (pageOf x) s :=
  readPage_written (hp.written x hx hxr)

/-- An inner node pending: no leaf is without entries. -/
theorem filled_of_inner {id : Nat} {ks : List LeafEntry} {cs : List Nat}
    (hp : Pending ty T (.inner id ks cs) s) : Filled T := fun l hl => hp.filled l hl fun heq => by
  have hsame := hp.eq_of_id (leaf_mem_records hl) hp.mem heq
  cases hsame

/-- Everything in the tree is of the type. -/
theorem encodes_all (hp : Pending ty T r s) : ∀ e ∈ T.entries, e.Encodes ty := by
  intro e he
  obtain ⟨l, hl, hel⟩ := List.mem_flatMap.mp he
  have hmem := leaf_mem_records hl
  by_cases hlr : l.id = r.id
  · refine hp.encodes e ?_
    rw [← hp.eq_of_id hmem hp.mem hlr]
    exact hel
  · exact (hp.written _ hmem hlr).encodes e hel

/-- The children of a pending node can be looked into. -/
theorem children_planted {ctx : Ctx LeafEntry H (k + 1)} {id : Nat} {ks : List LeafEntry}
    {cs : List (BPlusTree LeafEntry k)} (hp : PendingAt ty ctx (node id ks cs) s) :
    ∀ c ∈ cs, Planted ty c s.pager := by
  intro c hc
  obtain ⟨left, right, rfl⟩ := List.append_of_mem hc
  have hplug : ctx.plug (node id ks (left ++ c :: right)) =
      (Ctx.frame id ks left right ctx).plug c := by rw [Ctx.plug]
  have hnodup := hp.nodup
  rw [Ctx.ids_plug, ids_node] at hnodup
  have hid := (Multiset.nodup_cons.mp (Multiset.nodup_add.mp hnodup).2.1).1
  rw [PendingAt, hplug] at hp
  refine hp.planted fun hmem => hid ?_
  rw [idsOf_append, idsOf_cons]
  simp only [Multiset.mem_add]
  exact .inr (.inl hmem)

/-- The pending node in memory, its separators rebuilt. -/
theorem refresh {ctx : Ctx LeafEntry H (k + 1)} {id : Nat} {ks : List LeafEntry}
    {cs : List (BPlusTree LeafEntry k)} (hp : PendingAt ty ctx (node id ks cs) s) {p : ParsedPage}
    (h : Heads p id (cs.map rootId)) :
    ∃ p', rebuildInternalKeys p s = .ok p' s ∧ Shows p' (above id cs).rootRecord :=
  rebuild_heads h hp.children_planted
/-! ### The parent's page and the siblings' -/
section Family
variable {up : Ctx LeafEntry H (k + 1)} {pid : Nat} {ks : List LeafEntry}
  {left right : List (BPlusTree LeafEntry k)} {x : BPlusTree LeafEntry k}

theorem family_nodup (hp : Pending ty ((Ctx.frame pid ks left right up).plug x) r s) :
    (pid ::ₘ (idsOf left + (x.ids + idsOf right))).Nodup := by
  have hnodup := hp.nodup
  rw [Ctx.plug, Ctx.ids_plug, ids_node, idsOf_append, idsOf_cons] at hnodup
  exact (Multiset.nodup_add.mp hnodup).2.1

theorem parent_ne (hp : Pending ty ((Ctx.frame pid ks left right up).plug x) r s)
    (hr : r ∈ x.records) : pid ≠ r.id := by
  rintro rfl
  refine (Multiset.nodup_cons.mp hp.family_nodup).1 ?_
  simp only [Multiset.mem_add]
  exact .inr (.inl (mem_ids hr))

theorem parent_written (hp : Pending ty ((Ctx.frame pid ks left right up).plug x) r s)
    (hr : r ∈ x.records) :
    Written ty s.pager (.inner pid ks ((left ++ x :: right).map rootId)) := by
  refine hp.written _ ?_ (hp.parent_ne hr)
  rw [Ctx.plug]
  exact Ctx.records_hole (Multiset.mem_cons_self _ _)

theorem read_parent (hp : Pending ty ((Ctx.frame pid ks left right up).plug x) r s)
    (hr : r ∈ x.records) :
    readPage pid s = .ok (pageOf (.inner pid ks ((left ++ x :: right).map rootId))) s :=
  readPage_written (hp.parent_written hr)

theorem sibling_ne (hp : Pending ty ((Ctx.frame pid ks left right up).plug x) r s)
    (hr : r ∈ x.records) {d : BPlusTree LeafEntry k} (hd : d ∈ left ∨ d ∈ right) :
    d.rootId ≠ r.id := by
  have hnodup := (Multiset.nodup_cons.mp hp.family_nodup).2
  have hids : ∀ {cs : List (BPlusTree LeafEntry k)}, d ∈ cs → d.rootId ∈ idsOf cs := fun hd => by
    rw [← rootRecord_id]
    exact mem_idsOf (mem_recordsOf.mpr ⟨d, hd, rootRecord_mem d⟩)
  intro heq
  rcases hd with hd | hd
  · exact Multiset.disjoint_left.mp (Multiset.nodup_add.mp hnodup).2.2 (hids hd)
      (Multiset.mem_add.mpr (.inl (heq ▸ mem_ids hr)))
  · exact Multiset.disjoint_left.mp
      (Multiset.nodup_add.mp (Multiset.nodup_add.mp hnodup).2.1).2.2 (mem_ids hr) (heq ▸ hids hd)

theorem read_sibling (hp : Pending ty ((Ctx.frame pid ks left right up).plug x) r s)
    (hr : r ∈ x.records) {d : BPlusTree LeafEntry k} (hd : d ∈ left ∨ d ∈ right) :
    readPage d.rootId s = .ok (pageOf d.rootRecord) s := by
  have hne := hp.sibling_ne hr hd
  rw [← rootRecord_id] at hne ⊢
  refine hp.read ?_ hne
  rw [Ctx.plug]
  refine Ctx.records_hole (Multiset.mem_cons_of_mem (mem_recordsOf.mpr ⟨d, ?_, rootRecord_mem d⟩))
  rcases hd with hd | hd
  · exact List.mem_append_left _ hd
  · exact List.mem_append_right _ (List.mem_cons_of_mem _ hd)

theorem hole_index (hp : Pending ty ((Ctx.frame pid ks left right up).plug x) r s) :
    ((left ++ x :: right).map rootId).idxOf? x.rootId = some left.length := by
  have hnodup := (Multiset.nodup_cons.mp hp.family_nodup).2
  rw [List.map_append, List.map_cons, idxOf?_hole, List.length_map]
  intro hmem
  obtain ⟨d, hd, heq⟩ := List.mem_map.mp hmem
  refine Multiset.disjoint_left.mp (Multiset.nodup_add.mp hnodup).2.2
    (mem_idsOf (mem_recordsOf.mpr ⟨d, hd, rootRecord_mem d⟩)) (Multiset.mem_add.mpr (.inl ?_))
  rw [rootRecord_id, heq]
  exact rootId_mem_ids x
end Family

/-! ### Children dealt out anew -/

section Rebuild
variable {up : Ctx LeafEntry H (k + 1)} {id : Nat} {ks : List LeafEntry}
  {left xs ys right : List (BPlusTree LeafEntry k)}

/-- The ids of a node's surroundings: what is not among the children in question. -/
theorem ids_apart (up : Ctx LeafEntry H (k + 1)) (id : Nat) (ks : List LeafEntry)
    (left xs right : List (BPlusTree LeafEntry k)) :
    (up.plug (node id ks (left ++ xs ++ right))).ids =
      (up.ids + ({id} + (idsOf left + idsOf right))) + idsOf xs := by
  rw [Ctx.ids_plug, ids_node, idsOf_append, idsOf_append, ← Multiset.singleton_add]
  abel

/-- A record of the tree is around the children in question, or of one of them. -/
theorem record_apart {x : NodeRecord LeafEntry}
    (hx : x ∈ (up.plug (node id ks (left ++ xs ++ right))).records) :
    x = .inner id ks ((left ++ xs ++ right).map rootId) ∨ x ∈ recordsOf xs ∨
      x.id ∈ up.ids + ({id} + (idsOf left + idsOf right)) ∧
        ∀ (ks' : List LeafEntry) (ys : List (BPlusTree LeafEntry k)),
          x ∈ (up.plug (node id ks' (left ++ ys ++ right))).records := by
  rw [Ctx.records_plug, records_node, rootId_node] at hx
  rcases Multiset.mem_add.mp hx with hx | hx
  · refine .inr (.inr ⟨?_, fun ks' ys => Ctx.records_around (by rwa [rootId_node])⟩)
    rw [← up.map_id_records id]
    exact Multiset.mem_add.mpr (.inl (Multiset.mem_map_of_mem _ hx))
  · rcases Multiset.mem_cons.mp hx with hx | hx
    · exact .inl hx
    · obtain ⟨c, hc, hxc⟩ := mem_recordsOf.mp hx
      have hthere : ∀ (ks' : List LeafEntry) (ys : List (BPlusTree LeafEntry k)),
          c ∈ left ++ ys ++ right →
            x ∈ (up.plug (node id ks' (left ++ ys ++ right))).records := fun ks' ys hmem =>
        Ctx.records_hole (Multiset.mem_cons_of_mem (mem_recordsOf.mpr ⟨c, hmem, hxc⟩))
      rcases List.mem_append.mp hc with hc | hc
      · rcases List.mem_append.mp hc with hc | hc
        · refine .inr (.inr ⟨?_, fun ks' ys => hthere ks' ys (by simp [hc])⟩)
          have hmem := mem_idsOf (mem_recordsOf.mpr ⟨c, hc, hxc⟩)
          simp only [Multiset.mem_add]
          exact .inr (.inr (.inl hmem))
        · exact .inr (.inl (mem_recordsOf.mpr ⟨c, hc, hxc⟩))
      · refine .inr (.inr ⟨?_, fun ks' ys => hthere ks' ys (by simp [hc])⟩)
        have hmem := mem_idsOf (mem_recordsOf.mpr ⟨c, hc, hxc⟩)
        simp only [Multiset.mem_add]
        exact .inr (.inr (.inr hmem))

/-- Some children, the pending node among them, are replaced by others in pages
written for them: now their parent is pending. -/
theorem rebuild (hp : Pending ty (up.plug (node id ks (left ++ xs ++ right))) r s)
    (hr : r ∈ recordsOf xs) (hlinks : Relinks (leavesOf xs) (leavesOf ys)) (hne : ys ≠ [])
    (hys : ∀ c ∈ ys, Jointed c ∧ Filled c) (fresh : Multiset Nat)
    (hids : idsOf ys ≤ idsOf xs + fresh) (hnodup : fresh.Nodup)
    (hfresh : ∀ i ∈ fresh, 0 < i ∧ i ∉ (up.plug (node id ks (left ++ xs ++ right))).ids)
    {rs : List (NodeRecord LeafEntry)}
    (hrs : ∀ x ∈ rs, x ∈ recordsOf ys ∧ NodeMap.overflows (pageOf x) = false ∧
      ∀ e ∈ x.keys, e.Encodes ty)
    (hold : ∀ x ∈ recordsOf ys, x ∈ rs ∨ (x ∈ recordsOf xs ∧ x.id ≠ r.id)) :
    Pending ty (up.plug (node id (minima (left ++ ys ++ right)) (left ++ ys ++ right)))
      (.inner id (minima (left ++ ys ++ right)) ((left ++ ys ++ right).map rootId))
      (putNodes s rs) := by
  have hall : ((up.plug (node id ks (left ++ xs ++ right))).ids + fresh).Nodup :=
    Multiset.nodup_add.mpr ⟨hp.nodup, hnodup,
      Multiset.disjoint_right.mpr fun hi => (hfresh _ hi).2⟩
  rw [ids_apart, add_assoc] at hall
  have hdisjoint : ∀ {i : Nat}, i ∈ up.ids + ({id} + (idsOf left + idsOf right)) →
      i ∉ idsOf xs + fresh := Multiset.disjoint_left.mp (Multiset.nodup_add.mp hall).2.2
  have hapart : ∀ {x : NodeRecord LeafEntry},
      x.id ∈ up.ids + ({id} + (idsOf left + idsOf right)) → x.id ≠ r.id ∧ ∀ y ∈ rs, x.id ≠ y.id := by
    intro x hx
    refine ⟨fun heq => hdisjoint hx ?_, fun y hy heq => hdisjoint hx ?_⟩
    · rw [heq]
      exact Multiset.mem_add.mpr (.inl (mem_idsOf hr))
    · rw [heq]
      exact Multiset.mem_of_le hids (mem_idsOf (hrs y hy).1)
  have hnodupYs : (idsOf ys).Nodup := Multiset.nodup_of_le hids (Multiset.nodup_add.mp hall).2.1
  have hparent : (NodeRecord.inner id ks ((left ++ xs ++ right).map rootId)) ∈
      (up.plug (node id ks (left ++ xs ++ right))).records :=
    Ctx.records_hole (Multiset.mem_cons_self _ _)
  have hparentId : id ≠ r.id := (hapart (x := .inner id ks []) (by simp [NodeRecord.id])).1
  have hparentWritten := hp.written _ hparent hparentId
  -- the leaves around, and those of the new children, have entries
  have hfilledAll : ∀ l ∈ (up.plug (node id (minima (left ++ ys ++ right))
      (left ++ ys ++ right))).leaves, l.entries ≠ [] := by
    intro l hl
    rcases record_apart (leaf_mem_records hl) with heq | hmem | ⟨hmem, hthere⟩
    · cases heq
    · obtain ⟨c, hc, hlc⟩ := mem_recordsOf.mp hmem
      exact (hys c hc).2 l (mem_leaves hlc)
    · exact hp.filled l (mem_leaves (hthere ks xs)) (hapart hmem).1
  have hnodupAll : (up.plug (node id (minima (left ++ ys ++ right)) (left ++ ys ++ right))).ids.Nodup := by
    rw [ids_apart]
    exact Multiset.nodup_of_le (by gcongr) hall
  have hxs : ∀ x ∈ recordsOf xs, x ∈ (up.plug (node id ks (left ++ xs ++ right))).records := by
    intro x hx
    obtain ⟨c, hc, hxc⟩ := mem_recordsOf.mp hx
    have hc' : c ∈ left ++ xs ++ right := List.mem_append_left _ (List.mem_append_right _ hc)
    exact Ctx.records_hole (Multiset.mem_cons_of_mem (mem_recordsOf.mpr ⟨c, hc', hxc⟩))
  have hwritten : ∀ x ∈ (up.plug (node id (minima (left ++ ys ++ right))
      (left ++ ys ++ right))).records, x.id ≠ id → Written ty (putNodes s rs).pager x := by
    intro x hx hxid
    rcases record_apart hx with heq | hmem | ⟨hmem, hthere⟩
    · exact absurd (by rw [heq]; rfl) hxid
    · have hunique : ∀ y ∈ rs, y.id = x.id → y = x := fun y hy heq =>
        Multiset.inj_on_of_nodup_map hnodupYs y (hrs y hy).1 x hmem heq
      by_cases hxrs : x ∈ rs
      · have hpos : 0 < x.id := by
          rcases Multiset.mem_add.mp (Multiset.mem_of_le hids (mem_idsOf hmem)) with hi | hi
          · obtain ⟨y, hy, heq⟩ := Multiset.mem_map.mp hi
            rw [← heq]
            exact hp.id_pos _ (mem_ids (hxs y hy))
          · exact (hfresh _ hi).1
        exact written_putNodes_mem hxrs hunique hpos (hrs x hxrs).2.1 (hrs x hxrs).2.2
      · obtain ⟨hxold, hxr⟩ := (hold x hmem).resolve_left hxrs
        exact written_putNodes_ne (hp.written x (hxs x hxold) hxr) fun y hy heq =>
          hxrs (hunique y hy heq.symm ▸ hy)
    · exact written_putNodes_ne (hp.written x (hthere ks xs) (hapart hmem).1) (hapart hmem).2
  have hchild : ∀ c ∈ left ++ ys ++ right, Jointed c ∧ c.entries ≠ [] := by
    intro c hc
    have hjointed : Jointed c := by
      have hold := (jointed_node.mp (up.jointed_hole hp.jointed)).2
      rcases List.mem_append.mp hc with hc | hc
      · rcases List.mem_append.mp hc with hc | hc
        · exact hold c (by simp [hc])
        · exact (hys c hc).1
      · exact hold c (by simp [hc])
    refine ⟨hjointed, Filled.entries_ne_nil (fun l hl => hfilledAll l ?_) hjointed.branching⟩
    exact Ctx.leaves_hole (List.mem_flatMap.mpr ⟨c, hc, hl⟩)
  exact
    { nodup := hnodupAll
      jointed := by
        refine up.jointed_replace hp.jointed ((jointed_above (by simp [hne])).mpr ?_)
        exact fun c hc => (hchild c hc).1
      filled := fun l hl _ => hfilledAll l hl
      linked := by
        have hplug : Relinks (up.plug (node id ks (left ++ xs ++ right))).leaves
            (up.plug (node id (minima (left ++ ys ++ right)) (left ++ ys ++ right))).leaves := by
          simp only [Ctx.leaves_plug, leaves_node, leavesOf_append]
          exact (hlinks.around _ _).around _ _
        rw [putNodes_firstLeafPage]
        exact hplug _ _ hp.linked
      root := by
        rw [putNodes_rootPage, hp.root, Ctx.rootId_plug, Ctx.rootId_plug]
        rfl
      mem := Ctx.records_hole (Multiset.mem_cons_self _ _)
      pos := hparentWritten.pos
      lt := hparentWritten.lt.trans_le (putNodes_count_le rs)
      encodes := fun e he => by
        obtain ⟨c, hc, rfl⟩ := List.mem_map.mp he
        have hc' := List.mem_of_mem_tail hc
        obtain ⟨l, hl, hel⟩ := List.mem_flatMap.mp (minEntry_mem (hchild c hc').2)
        have hmem : .leaf l ∈ (up.plug (node id (minima (left ++ ys ++ right))
            (left ++ ys ++ right))).records :=
          Ctx.records_hole (Multiset.mem_cons_of_mem (mem_recordsOf.mpr ⟨c, hc', leaf_mem_records hl⟩))
        refine (hwritten _ hmem fun heq => ?_).encodes _ hel
        have hsame := Multiset.inj_on_of_nodup_map hnodupAll _ hmem _
          (Ctx.records_hole (Multiset.mem_cons_self _ _)) heq
        cases hsame
      written := hwritten }

/-- The pages of a node's children are the store's. -/
theorem child_lt {up : Ctx LeafEntry H (k + 1)} {id : Nat} {ks : List LeafEntry}
    {cs : List (BPlusTree LeafEntry k)} (hp : Pending ty (up.plug (node id ks cs)) r s) :
    ∀ c ∈ cs, c.rootId < s.pager.count := by
  intro c hc
  refine hp.id_lt _ ?_
  rw [← rootRecord_id]
  refine mem_ids (Ctx.records_hole (Multiset.mem_cons_of_mem ?_))
  exact mem_recordsOf.mpr ⟨c, hc, rootRecord_mem c⟩

/-- Below neighbouring nodes, one of them pending, everything can be looked into. -/
theorem grandchildren_planted {up : Ctx LeafEntry H (k + 2)} {id : Nat} {ks : List LeafEntry}
    {left xs right : List (BPlusTree LeafEntry (k + 1))}
    (hp : Pending ty (up.plug (node id ks (left ++ xs ++ right))) r s)
    (hr : ∃ x ∈ xs, r = x.rootRecord) : ∀ c ∈ childrenOf xs, Planted ty c s.pager := by
  obtain ⟨x₀, hx₀, rfl⟩ := hr
  intro c hc
  obtain ⟨x, hx, hcx⟩ := List.mem_flatMap.mp hc
  have hx' : x ∈ left ++ xs ++ right := List.mem_append_left _ (List.mem_append_right _ hx)
  have hrecord : ∀ y ∈ c.records, y ∈ (up.plug (node id ks (left ++ xs ++ right))).records := by
    intro y hy
    refine Ctx.records_hole (Multiset.mem_cons_of_mem (mem_recordsOf.mpr ⟨x, hx', ?_⟩))
    exact Multiset.mem_cons_of_mem (mem_recordsOf.mpr ⟨c, hcx, hy⟩)
  have hnodup := hp.nodup
  rw [ids_apart] at hnodup
  have hnodupXs := (Multiset.nodup_add.mp hnodup).2.1
  rw [idsOf_nodes] at hnodupXs
  have hxs := Multiset.nodup_add.mp hnodupXs
  have hroot : x₀.rootRecord.id ∈ ((xs.map rootId : List Nat) : Multiset Nat) := by
    rw [rootRecord_id]
    exact Multiset.mem_coe.mpr (List.mem_map_of_mem hx₀)
  have hne : ∀ y ∈ c.records, y.id ≠ x₀.rootRecord.id := by
    intro y hy heq
    exact Multiset.disjoint_left.mp hxs.2.2 hroot (heq ▸ mem_idsOf (mem_recordsOf.mpr ⟨c, hc, hy⟩))
  obtain ⟨before, after, hsplit⟩ := List.append_of_mem hc
  refine ⟨fun y hy => hp.written y (hrecord y hy) (hne y hy), ?_, ?_, fun l hl => ?_⟩
  · have hids := hxs.2.1
    rw [hsplit, idsOf_append, idsOf_cons] at hids
    exact (Multiset.nodup_add.mp (Multiset.nodup_add.mp hids).2.1).1
  · exact (((jointed_node.mp (up.jointed_hole hp.jointed)).2 x hx').2 c hcx).branching
  · have hmem := leaf_mem_records hl
    exact hp.filled l (mem_leaves (hrecord _ hmem)) (hne _ hmem)

/-- Neighbouring leaves are replaced by others, all of them written. -/
theorem rebuild_leaves {up : Ctx LeafEntry H 1} {id : Nat} {ks : List LeafEntry}
    {left right : List (BPlusTree LeafEntry 0)} (ls ms : List (Leaf LeafEntry))
    (hp : Pending ty (up.plug (node id ks (left ++ leavesAt ls ++ right))) r s)
    (hr : ∃ l ∈ ls, r = .leaf l)
    (hentries : (ms.flatMap Leaf.entries).Perm (ls.flatMap Leaf.entries)) (hlinks : Relinks ls ms)
    (hne : ms ≠ []) (hms : ∀ m ∈ ms, m.entries ≠ [] ∧ Fits (leaf m))
    (fresh : Multiset Nat)
    (hids : ((ms.map Leaf.id : List Nat) : Multiset Nat) ≤ (ls.map Leaf.id : List Nat) + fresh)
    (hnodup : fresh.Nodup)
    (hfresh : ∀ i ∈ fresh, 0 < i ∧ i ∉ (up.plug (node id ks (left ++ leavesAt ls ++ right))).ids)
    {rs : List (NodeRecord LeafEntry)} (hrs : ∀ x, x ∈ rs ↔ x ∈ ms.map NodeRecord.leaf) :
    PendingAt ty up (above id (left ++ leavesAt ms ++ right)) (putNodes s rs) := by
  obtain ⟨l, hl, rfl⟩ := hr
  have hencodes : ∀ e ∈ ms.flatMap Leaf.entries, e.Encodes ty := by
    intro e he
    refine hp.encodes_all e ?_
    rw [Ctx.entries_plug, entries_node, entriesOf_append, entriesOf_append, entriesOf_leaves]
    simp only [List.mem_append]
    exact .inl (.inr (.inl (.inr (hentries.mem_iff.mp he))))
  refine hp.rebuild ?_ (by rwa [leavesOf_leaves, leavesOf_leaves]) (by simpa [leavesAt] using hne) ?_
    fresh (by rwa [idsOf_leaves, idsOf_leaves]) hnodup hfresh ?_ ?_
  · rw [recordsOf_leaves]
    exact Multiset.mem_coe.mpr (List.mem_map_of_mem hl)
  · intro c hc
    obtain ⟨m, hm, rfl⟩ := List.mem_map.mp hc
    refine ⟨trivial, fun l hl => ?_⟩
    rw [leaves_leaf] at hl
    rw [List.mem_singleton.mp hl]
    exact (hms m hm).1
  · intro x hx
    obtain ⟨m, hm, rfl⟩ := List.mem_map.mp ((hrs x).mp hx)
    refine ⟨?_, (hms m hm).2, fun e he => hencodes e (List.mem_flatMap.mpr ⟨m, hm, he⟩)⟩
    rw [recordsOf_leaves]
    exact Multiset.mem_coe.mpr (List.mem_map_of_mem hm)
  · intro x hx
    rw [recordsOf_leaves] at hx
    exact .inl ((hrs x).mpr (Multiset.mem_coe.mp hx))

/-- The children of neighbouring nodes are dealt out over others, all of them written. -/
theorem rebuild_nodes {up : Ctx LeafEntry H (k + 2)} {id : Nat} {ks : List LeafEntry}
    {left right : List (BPlusTree LeafEntry (k + 1))} (xs ys : List (BPlusTree LeafEntry (k + 1)))
    (hp : Pending ty (up.plug (node id ks (left ++ xs ++ right))) r s)
    (hr : ∃ x ∈ xs, r = x.rootRecord) (hchildren : childrenOf ys = childrenOf xs)
    (hne : ys ≠ [])
    (hys : ∀ y ∈ ys, y.keys = minima y.children ∧ y.children ≠ [] ∧ Fits y)
    (fresh : Multiset Nat)
    (hids : ((ys.map rootId : List Nat) : Multiset Nat) ≤ (xs.map rootId : List Nat) + fresh)
    (hnodup : fresh.Nodup)
    (hfresh : ∀ i ∈ fresh, 0 < i ∧ i ∉ (up.plug (node id ks (left ++ xs ++ right))).ids)
    {rs : List (NodeRecord LeafEntry)} (hrs : ∀ x, x ∈ rs ↔ x ∈ ys.map rootRecord) :
    PendingAt ty up (above id (left ++ ys ++ right)) (putNodes s rs) := by
  have hthere := hp.grandchildren_planted hr
  obtain ⟨x₀, hx₀, rfl⟩ := hr
  have hchild : ∀ y ∈ ys, ∀ c ∈ y.children, Jointed c ∧ Filled c := by
    intro y hy c hc
    have hmem : c ∈ childrenOf xs := hchildren ▸ List.mem_flatMap.mpr ⟨y, hy, hc⟩
    obtain ⟨x, hx, hcx⟩ := List.mem_flatMap.mp hmem
    have hchildOf := (jointed_node.mp (up.jointed_hole hp.jointed)).2 x (by simp [hx])
    exact ⟨hchildOf.2 c hcx, (hthere c hmem).filled⟩
  have hnodupXs : (idsOf xs).Nodup := by
    have hnodup' := hp.nodup
    rw [ids_apart] at hnodup'
    exact (Multiset.nodup_add.mp hnodup').2.1
  rw [idsOf_nodes] at hnodupXs
  refine hp.rebuild ?_ (replaces_nodes hchildren).links hne ?_ fresh ?_ hnodup hfresh ?_ ?_
  · exact mem_recordsOf.mpr ⟨x₀, hx₀, rootRecord_mem x₀⟩
  · intro y hy
    obtain ⟨hkeys, hnonempty, -⟩ := hys y hy
    constructor
    · rw [eq_node y, hkeys]
      exact (jointed_above hnonempty).mpr fun c hc => (hchild y hy c hc).1
    · intro l hl
      obtain ⟨c, hc, hlc⟩ := List.mem_flatMap.mp hl
      exact (hchild y hy c hc).2 l hlc
  · rw [idsOf_nodes, idsOf_nodes, hchildren, add_right_comm]
    gcongr
  · intro r hr
    obtain ⟨y, hy, rfl⟩ := List.mem_map.mp ((hrs r).mp hr)
    obtain ⟨hkeys, -, hfits⟩ := hys y hy
    refine ⟨mem_recordsOf.mpr ⟨y, hy, rootRecord_mem y⟩, ?_, fun e he => ?_⟩
    · exact hfits
    · have he' : e ∈ y.keys := he
      rw [hkeys] at he'
      obtain ⟨c, hc, rfl⟩ := List.mem_map.mp he'
      have hc' := List.mem_of_mem_tail hc
      obtain ⟨hjointed, hfill⟩ := hchild y hy c hc'
      refine hp.encodes_all _ ?_
      rw [Ctx.entries_plug, entries_node, entriesOf_append, entriesOf_append,
        ← entriesOf_children xs, ← hchildren]
      simp only [List.mem_append]
      exact .inl (.inr (.inl (.inr (List.mem_flatMap.mpr ⟨c, List.mem_flatMap.mpr ⟨y, hy, hc'⟩,
        minEntry_mem (hfill.entries_ne_nil hjointed.branching)⟩))))
  · intro r hr
    rw [recordsOf_nodes, hchildren] at hr
    rcases Multiset.mem_add.mp hr with hr | hr
    · exact .inl ((hrs r).mpr (Multiset.mem_coe.mp hr))
    · refine .inr ⟨?_, fun heq => ?_⟩
      · rw [recordsOf_nodes]
        exact Multiset.mem_add.mpr (.inr hr)
      · refine Multiset.disjoint_left.mp (Multiset.nodup_add.mp hnodupXs).2.2 ?_ (mem_idsOf hr)
        rw [heq, rootRecord_id]
        exact Multiset.mem_coe.mpr (List.mem_map_of_mem hx₀)

end Rebuild

/-! ### What was in order stays in order -/

section Reforms
variable {up : Ctx LeafEntry H (k + 1)} {id : Nat} {ks : List LeafEntry}
  {left xs ys right : List (BPlusTree LeafEntry k)}

/-- The parent that is pending now, against the tree before. -/
theorem reforms {s : DiskBspIndex NodeMap}
    (hp : PendingAt ty up (above id (left ++ ys ++ right)) s) (hne : ys ≠ [])
    (hperm : (entriesOf ys).Perm (entriesOf xs))
    (hsorted : Sorted LeafEntry.value (up.plug (node id ks (left ++ xs ++ right))) →
      entriesOf ys = entriesOf xs ∧ ∀ y ∈ ys, Ordered LeafEntry.value y) :
    Reforms LeafEntry.value (up.plug (node id ks (left ++ xs ++ right)))
      (up.plug (above id (left ++ ys ++ right))) := by
  have hfilled := hp.filled_of_inner
  refine reforms_rebuild ?_ (by simp [hne]) ?_ fun hs => ?_
  · simp only [entriesOf_append]
    exact (hperm.append_left _).append_right _
  · intro d hd
    exact (hp.children_planted d hd).entries_ne_nil
  · obtain ⟨hentries, hys⟩ := hsorted hs
    have hold := (ordered_node.mp (up.ordered_hole hs.ordered)).2
    simp only [List.forall_mem_append] at hold ⊢
    exact ⟨by simp only [entriesOf_append, hentries], ⟨hold.1.1, hys⟩, hold.2⟩

end Reforms

/-- Leaves with the same entries, which are in place if they ascend. -/
theorem reforms_leaves {up : Ctx LeafEntry H 1} {id : Nat} (ks : List LeafEntry)
    {left right : List (BPlusTree LeafEntry 0)} {ls ms : List (Leaf LeafEntry)}
    {s : DiskBspIndex NodeMap} (hp : PendingAt ty up (above id (left ++ leavesAt ms ++ right)) s)
    (hne : ms ≠ []) (hperm : (ms.flatMap Leaf.entries).Perm (ls.flatMap Leaf.entries))
    (hsame : Ascending LeafEntry.value (ls.flatMap Leaf.entries) →
      ms.flatMap Leaf.entries = ls.flatMap Leaf.entries) :
    Reforms LeafEntry.value (up.plug (node id ks (left ++ leavesAt ls ++ right)))
      (up.plug (above id (left ++ leavesAt ms ++ right))) := by
  refine hp.reforms (by simpa [leavesAt] using hne) ?_ fun hs => ⟨?_, fun y hy => ?_⟩
  · rwa [entriesOf_leaves, entriesOf_leaves]
  · have hasc := hs.ascending
    rw [Ctx.entries_plug, entries_node, entriesOf_append, entriesOf_append, entriesOf_leaves] at hasc
    rw [entriesOf_leaves, entriesOf_leaves]
    exact hsame hasc.append.1.append.2.1.append.1.append.2.1
  · obtain ⟨m, -, rfl⟩ := List.mem_map.mp hy
    trivial

/-- Nodes dealt out anew: the leaves are the same. -/
theorem regroups_nodes {up : Ctx LeafEntry H (k + 2)} {id : Nat} (ks : List LeafEntry)
    {left right xs ys : List (BPlusTree LeafEntry (k + 1))} {s : DiskBspIndex NodeMap}
    (hp : PendingAt ty up (above id (left ++ ys ++ right)) s) (hne : ys ≠ [])
    (hchildren : childrenOf ys = childrenOf xs)
    (hys : ∀ y ∈ ys, y.keys = minima y.children ∧ y.children ≠ []) :
    Regroups LeafEntry.value (up.plug (node id ks (left ++ xs ++ right)))
      (up.plug (above id (left ++ ys ++ right))) where
  leaves := by
    have hleaves : leavesOf ys = leavesOf xs := by
      rw [← leavesOf_children, hchildren, leavesOf_children]
    rw [Ctx.leaves_plug, Ctx.leaves_plug, leaves_node, leaves_node]
    simp only [leavesOf_append, hleaves]
  sorted hs := by
    have hall : entriesOf ys = entriesOf xs := by
      rw [← entriesOf_children, hchildren, entriesOf_children]
    refine ((hp.reforms hne (List.Perm.of_eq hall) fun _ => ⟨hall, fun y hy => ?_⟩).sorted hs).1
    have hchild : ∀ c ∈ y.children, Ordered LeafEntry.value c ∧ c.entries ≠ [] := by
      intro c hc
      have hmem : c ∈ childrenOf xs := hchildren ▸ List.mem_flatMap.mpr ⟨y, hy, hc⟩
      obtain ⟨x, hx, hcx⟩ := List.mem_flatMap.mp hmem
      have hord := ((ordered_node.mp (up.ordered_hole hs.ordered)).2 x (by simp [hx])).2 c hcx
      refine ⟨hord, Filled.entries_ne_nil (fun l hl => ?_) hord.branching⟩
      have hchild : y ∈ left ++ ys ++ right := List.mem_append_left _ (List.mem_append_right _ hy)
      refine hp.filled_of_inner l (Ctx.leaves_hole (List.mem_flatMap.mpr ⟨y, hchild, ?_⟩))
      exact List.mem_flatMap.mpr ⟨c, hc, hl⟩
    obtain ⟨hkeys, hnonempty⟩ := hys y hy
    have hrun : Ascending LeafEntry.value (entriesOf ys) := by
      have hasc := hs.ascending
      rw [Ctx.entries_plug, entries_node, entriesOf_append, entriesOf_append] at hasc
      rw [hall]
      exact hasc.append.1.append.2.1.append.1.append.2.1
    have hasc := ascending_child hrun y hy
    rw [eq_node y, entries_node] at hasc
    rw [eq_node y, hkeys]
    exact ordered_node.mpr ⟨separated_minima hnonempty hasc fun c hc => (hchild c hc).2,
      fun c hc => (hchild c hc).1⟩

end Pending

/-! ### The index afterwards -/

/-- The index is a tree with the leaves of this one, in order if this one is. -/
def Holds (ty : DataType) (T : BPlusTree LeafEntry H) (n : Nat) (s : DiskBspIndex NodeMap) : Prop :=
  ∃ T' : BPlusTree LeafEntry H, Laid ty T' s ∧ Regroups LeafEntry.value T T' ∧ s.size = n

/-- The index is a tree with these leaves, of the entries of this one. -/
def HoldsLeaves (ty : DataType) (T : BPlusTree LeafEntry H) (ls : List (Leaf LeafEntry)) (n : Nat)
    (s : DiskBspIndex NodeMap) : Prop :=
  ∃ T' : BPlusTree LeafEntry H, Laid ty T' s ∧ T'.leaves = ls ∧ Reforms LeafEntry.value T T' ∧
    s.size = n

theorem Holds.after {T T₁ : BPlusTree LeafEntry H} {n : Nat} {s : DiskBspIndex NodeMap}
    (h : Holds ty T₁ n s) (hr : Reforms LeafEntry.value T T₁) : HoldsLeaves ty T T₁.leaves n s := by
  obtain ⟨T', hlaid, hregroups, hsize⟩ := h
  exact ⟨T', hlaid, hregroups.leaves, hr.trans hregroups.reforms, hsize⟩

end CwDb.Storage.DiskBspIndex
