import CwDb.Storage.Index.Erase
import CwDb.Storage.Index.LeafSplit

/-! Separators after a change below them.

When the smallest key of a subtree changed, the code climbs to the node where that key
is a separator and writes it there. The new separator may be longer than the old one, and
the node too full for it: then the write throws (`MinFits`). A parent whose children
changed gets all its separators anew first (`Refreshes`). -/
namespace CwDb.Storage.DiskBspIndex
open Foundation BPlusTree

variable {ty : DataType} {H k : Nat} {s : DiskBspIndex NodeMap}

/-! ### Pages of an index, one of them to be written -/

section Laid
variable {T : BPlusTree LeafEntry H} {up : Ctx LeafEntry H (k + 1)} {id : PageId}
  {ks : List LeafEntry} {cs : List (BPlusTree LeafEntry k)}

theorem Laid.pending (hs : Laid ty T s) (hne : T.entries ≠ []) {r : NodeRecord LeafEntry}
    (hr : r ∈ T.records) : Pending ty T r s where
  nodup := hs.shape.nodup
  jointed := hs.shape.jointed
  filled l hl _ := hs.shape.filled hne l hl
  linked := hs.shape.linked
  root := hs.root
  mem := hr
  pos := (hs.written r hr).pos
  lt := (hs.written r hr).lt
  encodes := (hs.written r hr).encodes
  written x hx _ := hs.written x hx

theorem Laid.planted {ctx : Ctx LeafEntry H k} {x : BPlusTree LeafEntry k}
    (hs : Laid ty (ctx.plug x) s) (hne : (ctx.plug x).entries ≠ []) : Planted ty x s.pager where
  written r hr := hs.written r (Ctx.records_hole hr)
  nodup := by
    have hnodup := hs.shape.nodup
    rw [Ctx.ids_plug] at hnodup
    exact (Multiset.nodup_add.mp hnodup).2.1
  branching := (ctx.jointed_hole hs.shape.jointed).branching
  filled l hl := hs.shape.filled hne l (Ctx.leaves_hole hl)

/-- A tree with an inner node has entries. -/
theorem Laid.entries_ne_nil (hs : Laid ty (up.plug (node id ks cs)) s) :
    (up.plug (node id ks cs)).entries ≠ [] := by
  intro hnil
  have hzero := hs.shape.empty hnil
  have hle := up.le_height
  omega

/-- A node with other separators, its page not written yet. -/
theorem Laid.rekey (hs : Laid ty (up.plug (node id ks cs)) s) (ks' : List LeafEntry) (hlength : ks'.length = ks.length)
    (hencodes : ∀ e ∈ ks', e.Encodes ty) : PendingAt ty up (node id ks' cs) s where
  nodup := by
    have hnodup := hs.shape.nodup
    rwa [Ctx.ids_plug, ids_node, ← ids_node id ks', ← Ctx.ids_plug] at hnodup
  jointed := by
    have hnode := jointed_node.mp (up.jointed_hole hs.shape.jointed)
    exact up.jointed_replace hs.shape.jointed (jointed_node.mpr ⟨hlength ▸ hnode.1, hnode.2⟩)
  filled l hl _ := by
    refine hs.shape.filled hs.entries_ne_nil l ?_
    rwa [Ctx.leaves_plug, leaves_node, ← leaves_node id ks, ← Ctx.leaves_plug] at hl
  linked := by
    rw [Ctx.leaves_plug, leaves_node, ← leaves_node id ks, ← Ctx.leaves_plug]
    exact hs.shape.linked
  root := by
    rw [hs.root, Ctx.rootId_plug, Ctx.rootId_plug]
    rfl
  mem := Ctx.records_hole (rootRecord_mem _)
  pos := (hs.written _ (Ctx.records_hole (rootRecord_mem _))).pos
  lt := (hs.written _ (Ctx.records_hole (rootRecord_mem _))).lt
  encodes := hencodes
  written x hx hid := by
    rw [Ctx.records_plug, records_node] at hx
    rcases Multiset.mem_add.mp hx with hx | hx
    · exact hs.written x (Ctx.records_around hx)
    · rcases Multiset.mem_cons.mp hx with rfl | hx
      · exact absurd rfl hid
      · exact hs.written x (Ctx.records_hole (Multiset.mem_cons_of_mem hx))

end Laid

/-! ### The smallest key of a subtree -/

/-- The node in which the smallest entry of the hole is a separator has room for it. -/
def MinFits (e : LeafEntry) : {H k : Nat} → Ctx LeafEntry H k → BPlusTree LeafEntry k → Prop
  | _, _, .top, _ => True
  | _, _, .frame id keys [] right up, x => MinFits e up (node id keys (x :: right))
  | _, _, .frame id keys (c :: left) right _, x =>
    Fits (node id (keys.set left.length e) (c :: left ++ x :: right))

theorem set_asSeparator (ks : List LeafEntry) (i : Nat) (e : LeafEntry) :
    ((ks.map LeafEntry.asSeparator).set i e).map LeafEntry.asSeparator =
      (ks.set i e).map LeafEntry.asSeparator := by
  rw [List.map_set, List.map_set, List.map_map]
  rfl

/-- The page of a node with one separator replaced. -/
theorem shows_rekeyed (id : PageId) (ks : List LeafEntry) (cs : List PageId) (i : Nat)
    (e : LeafEntry) :
    Shows { pageOf (.inner id ks cs) with
      innerKeys := (pageOf (.inner id ks cs)).innerKeys.set i e
      keyCount := UInt8.ofNat ((pageOf (.inner id ks cs)).innerKeys.set i e).length }
      (.inner id (ks.set i e) cs) := by
  rw [Shows, ParsedPage.stored, if_neg NodeType.noConfusion]
  simp only [pageOf, List.length_set, List.length_map]
  exact congrArg (fun keys => { pageId := id, type := .inner, keyCount := UInt8.ofNat ks.length
                                innerKeys := keys, children := cs : ParsedPage })
    (set_asSeparator ks i e)

theorem propagateLoop_spec : ∀ {H k : Nat} (ctx : Ctx LeafEntry H k) {x : BPlusTree LeafEntry k}
    {s : DiskBspIndex NodeMap}, Laid ty (ctx.plug x) s → x.entries ≠ [] →
      ReturnsIff (MinFits x.minEntry ctx x)
        (fun s' => Laid ty ((ctx.withMin x.minEntry).plug x) s' ∧ s'.size = s.size ∧
          s'.pager.count = s.pager.count)
        (propagateLoop x.rootId x.minEntry ctx.path s)
  | _, _, .top, x, s, hs, _ => by
    rw [Ctx.path, propagateLoop, MinFits, Ctx.withMin]
    exact ⟨trivial, hs, rfl, rfl⟩
  | H, k, .frame pid ks [] right up, x, s, hs, hne => by
    rw [Ctx.plug] at hs
    have hall := hs.entries_ne_nil
    have hplanted := hs.planted hall
    have hread : readPage pid s = .ok (pageOf (.inner pid ks ((x :: right).map rootId))) s :=
      readPage_written (hplanted.written _ (rootRecord_mem _))
    have hindex : ((x :: right).map rootId).idxOf? x.rootId = some 0 :=
      List.idxOf?_cons.trans (if_pos (beq_self_eq_true _))
    have hmin : subtreeMinEntry pid s = .ok x.minEntry s := by
      have hsub := subtreeMinEntry_planted hplanted
      rwa [rootId_node, List.nil_append, minEntry_node hne] at hsub
    have hloop := propagateLoop_spec up hs (by
      rw [entries_node, List.nil_append, entriesOf, List.flatMap_cons]
      exact List.append_ne_nil_of_left_ne_nil hne _)
    rw [List.nil_append, minEntry_node hne] at hloop
    rw [Ctx.path, propagateLoop, MinFits, Ctx.withMin, Ctx.plug]
    have hchildren : (pageOf (.inner pid ks ((x :: right).map rootId))).children =
        (x :: right).map rootId := rfl
    rw [bind_ok hread, if_neg (shows_pageOf _).heads.type, hchildren, hindex]
    dsimp only
    rw [if_neg (lt_irrefl 0)]
    exact (congrArg (ReturnsIff _ _) (bind_ok hmin)).mpr hloop
  | H, k, .frame pid ks (c :: left) right up, x, s, hs, hne => by
    rw [Ctx.plug] at hs
    have hall := hs.entries_ne_nil
    have hplanted := hs.planted hall
    have hread : readPage pid s =
        .ok (pageOf (.inner pid ks ((c :: left ++ x :: right).map rootId))) s :=
      readPage_written (hplanted.written _ (rootRecord_mem _))
    have hself : x.rootRecord ∈ x.records := rootRecord_mem x
    have hpending : Pending ty ((Ctx.frame pid ks (c :: left) right up).plug x) x.rootRecord s := by
      rw [Ctx.plug]
      refine hs.pending hall (Ctx.records_hole (Multiset.mem_cons_of_mem ?_))
      exact mem_recordsOf.mpr ⟨x, List.mem_append_right _ List.mem_cons_self, hself⟩
    have hindex := hpending.hole_index
    have hencodes : ∀ e ∈ ks.set left.length x.minEntry, e.Encodes ty := by
      intro e he
      rcases List.mem_or_eq_of_mem_set he with he | rfl
      · exact (hplanted.written _ (rootRecord_mem _)).encodes e he
      · refine hs.encodes _ ?_
        rw [Ctx.entries_plug, entries_node, entriesOf_append]
        simp [entriesOf, minEntry_mem hne]
    have hrekey := hs.rekey (ks.set left.length x.minEntry) (List.length_set ..) hencodes
    have hshows := shows_rekeyed pid ks ((c :: left ++ x :: right).map rootId) left.length x.minEntry
    rw [Ctx.path, propagateLoop, MinFits, Ctx.withMin, Ctx.plug, bind_ok hread,
      if_neg (shows_pageOf _).heads.type]
    have hchildren : (pageOf (.inner pid ks ((c :: left ++ x :: right).map rootId))).children =
        (c :: left ++ x :: right).map rootId := rfl
    rw [hchildren, hindex]
    dsimp only
    rw [if_pos (by simp), List.length_cons, Nat.add_sub_cancel]
    by_cases hfits : Fits (node pid (ks.set left.length x.minEntry) (c :: left ++ x :: right))
    · refine (congrArg (ReturnsIff _ _) (writePage_shows hshows hfits)).mpr ?_
      refine ⟨hfits, hrekey.settle hfits hrekey.filled_of_inner, rfl, ?_⟩
      exact max_eq_left hrekey.lt
    · obtain ⟨e, hthrow⟩ := writePage_shows_overflows (s := s) hshows ((Bool.not_eq_false _).mp hfits)
      exact (congrArg (ReturnsIff _ _) hthrow).mpr hfits

/-- The index is this tree, up to separators, and no page was allocated. -/
def Kept (ty : DataType) (T : BPlusTree LeafEntry H) (n size : Nat) (s : DiskBspIndex NodeMap) :
    Prop :=
  ∃ T' : BPlusTree LeafEntry H, Laid ty T' s ∧ Regroups LeafEntry.value T T' ∧
    T'.inners = T.inners ∧ s.size = size ∧ s.pager.count = n

theorem propagateSubtreeMinChange_spec (ctx : Ctx LeafEntry H k) {x : BPlusTree LeafEntry k}
    (hs : Laid ty (ctx.plug x) s) (hplanted : Planted ty x s.pager) :
    ReturnsIff (MinFits x.minEntry ctx x) (Kept ty (ctx.plug x) s.pager.count s.size)
      (propagateSubtreeMinChange x.rootId (x.rootId :: ctx.path) s) := by
  have hne := hplanted.entries_ne_nil
  have hloop := propagateLoop_spec ctx hs hne
  have hkept : ∀ s' : DiskBspIndex NodeMap, Laid ty ((ctx.withMin x.minEntry).plug x) s' ∧
      s'.size = s.size ∧ s'.pager.count = s.pager.count →
        Kept ty (ctx.plug x) s.pager.count s.size s' := by
    intro s' h
    obtain ⟨hlaid, hsize, hcount⟩ := h
    refine ⟨_, hlaid, ⟨Ctx.leaves_withMin _ _ _, Ctx.sorted_withMin ctx hne⟩, ?_, hsize, hcount⟩
    rw [Ctx.inners_plug, Ctx.inners_plug, Ctx.inners_withMin]
  cases hpath : ctx.path with
  | nil =>
    rw [hpath] at hloop
    exact hloop.imp Iff.rfl hkept
  | cons parentId above =>
    rw [hpath] at hloop
    rw [propagateSubtreeMinChange, if_neg (fun h => h rfl), bind_ok (subtreeMinEntry_planted hplanted)]
    exact hloop.imp Iff.rfl hkept

/-- A parent takes the separators of its children, and its ancestors its smallest key. -/
def Refreshes (up : Ctx LeafEntry H (k + 1)) (x : BPlusTree LeafEntry (k + 1)) : Prop :=
  Fits x ∧ MinFits x.minEntry up x

/-- The parent is pending: its children were written. -/
theorem refreshParent_spec {up : Ctx LeafEntry H (k + 1)} {pid : PageId}
    {cs : List (BPlusTree LeafEntry k)} {q : ParsedPage} (hp : PendingAt ty up (above pid cs) s)
    (hq : Heads q pid (cs.map rootId)) :
    ReturnsIff (Refreshes up (above pid cs)) (Kept ty (up.plug (above pid cs)) s.pager.count s.size)
      (refreshParent q (pid :: up.path) s) := by
  obtain ⟨q', hrebuild, hshows⟩ := hp.refresh hq
  have hid : q'.pageId = pid := hshows.pageId
  rw [refreshParent, bind_ok hrebuild, hid]
  refine writePage_then hshows fun hfits => ?_
  have hlaid := hp.settle hfits hp.filled_of_inner
  have hpropagate := propagateSubtreeMinChange_spec up hlaid (hlaid.planted hlaid.entries_ne_nil)
  have hcount : (s.putNode (above pid cs).rootRecord).pager.count = s.pager.count :=
    max_eq_left hp.lt
  rwa [hcount] at hpropagate

/-- Two children are written, and the parent then. -/
theorem writePair_refresh {up : Ctx LeafEntry H (k + 1)} {pid : PageId}
    {cs : List (BPlusTree LeafEntry k)} {r₁ r₂ : NodeRecord LeafEntry} {p₁ p₂ q : ParsedPage}
    (h₁ : Shows p₁ r₁) (h₂ : Shows p₂ r₂) (hlt : r₁.id < s.pager.count ∧ r₂.id < s.pager.count)
    (hp : NodeMap.overflows (pageOf r₁) = false → NodeMap.overflows (pageOf r₂) = false →
      PendingAt ty up (above pid cs) (putNodes s [r₁, r₂])) (hq : Heads q pid (cs.map rootId)) :
    ReturnsIff ((NodeMap.overflows (pageOf r₁) = false ∧ NodeMap.overflows (pageOf r₂) = false) ∧
        Refreshes up (above pid cs)) (Kept ty (up.plug (above pid cs)) s.pager.count s.size)
      ((writePage p₁ >>= fun _ => writePage p₂ >>= fun _ => refreshParent q (pid :: up.path)) s) := by
  rw [and_assoc]
  refine writePage_then h₁ fun hfits₁ => writePage_then h₂ fun hfits₂ => ?_
  have hcount : (putNodes s [r₁, r₂]).pager.count = s.pager.count :=
    putNodes_count (by simpa using hlt)
  have hrefresh := refreshParent_spec (hp hfits₁ hfits₂) hq
  rwa [hcount, putNodes_size] at hrefresh

end CwDb.Storage.DiskBspIndex
