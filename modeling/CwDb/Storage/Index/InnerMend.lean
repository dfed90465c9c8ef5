import CwDb.Storage.Index.Refresh

/-! How an inner node that is too empty is mended.

It borrows a child from a sibling that is not too empty itself, the left one first;
otherwise it is merged with a sibling, the left one first, or, if the two do not fit a
page, their children are evened out. A merge takes a child from the parent, which is
mended in turn (`Mends`); a root with a single child is given up for it. The leaves and
their order stay as they are, no page is allocated and no inner node is added
(`Mended`). -/
namespace CwDb.Storage.DiskBspIndex
open Foundation BPlusTree

variable {ty : DataType} {H k : Nat} {s : DiskBspIndex NodeMap}

/-! ### What is done about a child that is too empty -/

/-- A sibling lends, or the child is joined with one. -/
inductive Remedy (α : Type) where
  | fromLeft (init : List α) (d : α)
  | fromRight (d : α) (rest : List α)
  | joinLeft (init : List α) (d : α)
  | joinRight (d : α) (rest : List α)
  | alone

/-- Siblings in the order in which they are tried. -/
def remedy {α : Type} (lends : α → Bool) (left right : List α) : Remedy α :=
  match left.getLast?, right with
  | some d, [] => if lends d then .fromLeft left.dropLast d else .joinLeft left.dropLast d
  | some d, r :: rest =>
    if lends d then .fromLeft left.dropLast d
    else if lends r then .fromRight r rest
    else .joinLeft left.dropLast d
  | none, r :: rest => if lends r then .fromRight r rest else .joinRight r rest
  | none, [] => .alone

section Remedy
variable {α : Type} {lends : α → Bool} {init right : List α} {d r : α}

theorem remedy_fromLeft (h : lends d = true) :
    remedy lends (init ++ [d]) right = .fromLeft init d := by
  cases right with
  | nil => simp [remedy, h]
  | cons r rest => simp [remedy, h]

theorem remedy_fromRight_left (hd : lends d = false) (hr : lends r = true) :
    remedy lends (init ++ [d]) (r :: right) = .fromRight r right := by
  simp [remedy, hd, hr]

theorem remedy_joinLeft (hd : lends d = false) (hr : ∀ r ∈ right.head?, lends r = false) :
    remedy lends (init ++ [d]) right = .joinLeft init d := by
  cases right with
  | nil => simp [remedy, hd]
  | cons r rest => simp [remedy, hd, hr r rfl]

theorem remedy_nil : remedy lends [] (r :: right) =
    if lends r then .fromRight r right else .joinRight r right := rfl

end Remedy

/-! ### Pairs of siblings -/

/-- The left sibling lends its last child. -/
def lentByLeft (d x : BPlusTree LeafEntry (k + 1)) : List (BPlusTree LeafEntry (k + 1)) :=
  [above d.rootId d.children.dropLast, above x.rootId (d.children.getLast?.toList ++ x.children)]

/-- The right sibling lends its first child. -/
def lentByRight (x d : BPlusTree LeafEntry (k + 1)) : List (BPlusTree LeafEntry (k + 1)) :=
  [above x.rootId (x.children ++ d.children.head?.toList), above d.rootId d.children.tail]

/-- The children of two nodes, shared out evenly. -/
def evened (a b : BPlusTree LeafEntry (k + 1)) : List (BPlusTree LeafEntry (k + 1)) :=
  let cs := a.children ++ b.children
  [above a.rootId (cs.take ((cs.length + 1) / 2)), above b.rootId (cs.drop ((cs.length + 1) / 2))]

def mergedNode (a b : BPlusTree LeafEntry (k + 1)) : BPlusTree LeafEntry (k + 1) :=
  above a.rootId (a.children ++ b.children)

/-- A node that can spare a child. -/
def lendsChild (d : BPlusTree LeafEntry (k + 1)) : Bool :=
  !innerUnderflow d.keys (d.children.map rootId) false && decide (1 < d.children.length)

/-- Two nodes fit, and so does their parent. -/
def PairFits (up : Ctx LeafEntry H (k + 1)) (pid : PageId) (left ys right : List (BPlusTree LeafEntry k)) :
    Prop :=
  (∀ y ∈ ys, Fits y) ∧ Refreshes up (above pid (left ++ ys ++ right))

/-- The node, with these children, is written or mended, and so is every node above. -/
def Mends : {H k : Nat} → Ctx LeafEntry H (k + 1) → PageId → List (BPlusTree LeafEntry k) → Prop
  | _, _, .top, id, cs => cs.length = 1 ∨ Fits (above id cs)
  | _, _, .frame pid ks left right up, id, cs =>
    if innerUnderflow (minima cs) (cs.map rootId) false then
      match remedy lendsChild left right with
      | .fromLeft init d => PairFits up pid init (lentByLeft d (above id cs)) right
      | .fromRight d rest => PairFits up pid left (lentByRight (above id cs) d) rest
      | .joinLeft init d =>
        if Fits (mergedNode d (above id cs)) then
          Mends up pid (init ++ [mergedNode d (above id cs)] ++ right)
        else PairFits up pid init (evened d (above id cs)) right
      | .joinRight d rest =>
        if Fits (mergedNode (above id cs) d) then
          Mends up pid (left ++ [mergedNode (above id cs) d] ++ rest)
        else PairFits up pid left (evened (above id cs) d) rest
      | .alone => False
    else Fits (above id cs) ∧ MinFits (above id cs).minEntry (.frame pid ks left right up) (above id cs)

/-- The index is a tree with these leaves and no more inner nodes, and no page was
allocated. A root over one leaf is gone. -/
def Mended (ty : DataType) (T : BPlusTree LeafEntry H) (n size : Nat) (s : DiskBspIndex NodeMap) :
    Prop :=
  ∃ (h : Nat) (T' : BPlusTree LeafEntry h), Laid ty T' s ∧ Regroups LeafEntry.value T T' ∧
    T'.inners ≤ T.inners ∧ h ≤ H ∧ (H = 1 → T'.leaves.length = 1 → h = 0) ∧ s.size = size ∧
      s.pager.count = n

/-- What the recursive call on the parent is to do. -/
def Repairs (ty : DataType) (up : Ctx LeafEntry H (k + 1)) (pid : PageId)
    (handleParent : ParsedPage → IndexM NodeMap Unit) : Prop :=
  ∀ (cs : List (BPlusTree LeafEntry k)) (s : DiskBspIndex NodeMap) (q : ParsedPage),
    PendingAt ty up (above pid cs) s → Heads q pid (cs.map rootId) →
      ReturnsIff (Mends up pid cs) (Mended ty (up.plug (above pid cs)) s.pager.count s.size)
        (handleParent q s)

/-! ### A root with one child -/

theorem leftmostLeafLoop_planted : ∀ {h : Nat} {t : BPlusTree LeafEntry h} {fuel : Nat}
    {s : DiskBspIndex NodeMap}, h < fuel → Planted ty t s.pager →
      ∃ l ∈ t.leaves.head?, leftmostLeafLoop fuel t.rootId s = .ok l.id s
  | 0, t, fuel + 1, s, _, ht => by
    have hread := readPage_written (ht.written _ (rootRecord_mem t))
    rw [rootRecord_id] at hread
    refine ⟨t, rfl, ?_⟩
    rw [leftmostLeafLoop]
    exact (bind_ok hread).trans (congrFun (if_pos rfl) s)
  | h + 1, t, fuel + 1, s, hfuel, ht => by
    have hread := readPage_written (ht.written _ (rootRecord_mem t))
    rw [rootRecord_id] at hread
    rw [leftmostLeafLoop]
    rw [eq_node t] at ht hread ⊢
    generalize t.rootId = id at ht hread ⊢
    generalize t.keys = ks at ht hread ⊢
    generalize t.children = cs at ht hread ⊢
    cases cs with
    | nil => exact absurd rfl ht.branching.1
    | cons c cs =>
      obtain ⟨l, hl, hloop⟩ := leftmostLeafLoop_planted (Nat.lt_of_succ_lt_succ hfuel)
        (ht.child c List.mem_cons_self)
      refine ⟨l, ?_, ?_⟩
      · rw [leaves_node, leavesOf, List.flatMap_cons, List.head?_append, hl]
        rfl
      · refine (bind_ok hread).trans ?_
        exact (congrFun (if_neg NodeType.noConfusion) s).trans hloop

/-- The first leaf is the one the index names. -/
theorem head_leaf_id {first : Nat} {ls : List (Leaf LeafEntry)} (hlinked : Links first ls 0)
    {l : Leaf LeafEntry} (hl : l ∈ ls.head?) : first = l.id := by
  cases ls with
  | nil => cases hl
  | cons m ls =>
    cases hl
    exact hlinked.1

theorem promoteSingleChildRoot_spec {id : PageId} {c : BPlusTree LeafEntry k} {q : ParsedPage}
    (hp : PendingAt ty .top (above id [c]) s) (hq : Heads q id [c.rootId]) :
    ∃ s', promoteSingleChildRoot q s = .ok () s' ∧ Laid ty c s' ∧ s'.size = s.size ∧
      s'.pager.count = s.pager.count := by
  have hplanted := hp.children_planted c (List.mem_singleton_self c)
  have hread := readPage_written (hplanted.written _ (rootRecord_mem c))
  rw [rootRecord_id] at hread
  rw [PendingAt, Ctx.plug] at hp
  have hlinked := hp.linked
  rw [leaves_node, leavesOf, List.flatMap_cons, List.flatMap_nil, List.append_nil] at hlinked
  have hlaid : ∀ first : Nat, first = s.firstLeafPage →
      Laid ty c { s with rootPage := c.rootId, firstLeafPage := first } := by
    intro first hfirst
    exact
      { shape :=
          { nodup := hplanted.nodup
            jointed := (jointed_node.mp hp.jointed).2 c (List.mem_singleton_self c)
            filled := fun _ => hplanted.filled
            empty := fun hnil => absurd hnil hplanted.entries_ne_nil
            linked := hfirst ▸ hlinked }
        root := rfl
        written := hplanted.written }
  have hpageId : (pageOf c.rootRecord).pageId = c.rootId := by
    rw [pageOf_pageId, rootRecord_id]
  obtain ⟨l, hl, hloop⟩ := leftmostLeafLoop_planted (s := { s with rootPage := c.rootId })
    (Nat.lt_succ_of_lt (height_lt_count hplanted.written hplanted.nodup hplanted.branching)) hplanted
  have hfirst := head_leaf_id hlinked hl
  have hmatch : promoteSingleChildRoot q s = (do
      let child ← readPage c.rootId
      modify fun s => { s with rootPage := child.pageId }
      let first ← if child.type = .leaf then pure child.pageId else leftmostLeaf child.pageId
      modify fun s => { s with firstLeafPage := first } : IndexM NodeMap Unit) s := by
    rw [promoteSingleChildRoot, hq.children]
    exact congrFun (if_neg hq.type) s
  rw [hmatch, bind_ok hread, modify_bind_apply, hpageId]
  cases k with
  | zero =>
    have hid : (c.rootId : Nat) = s.firstLeafPage := hlinked.1.symm
    exact ⟨_, rfl, hlaid _ hid, rfl, rfl⟩
  | succ k =>
    have hleftmost : leftmostLeaf c.rootId { s with rootPage := c.rootId } =
        .ok l.id { s with rootPage := c.rootId } := (bind_ok descentFuel_apply).trans hloop
    have htype : ¬ (pageOf c.rootRecord).type = .leaf := NodeType.noConfusion
    rw [if_neg htype, bind_ok hleftmost]
    exact ⟨_, rfl, hlaid _ hfirst.symm, rfl, rfl⟩

/-! ### Two siblings written -/

theorem innerUnderflow_asSeparator (ks : List LeafEntry) (cs : List PageId) (isRoot : Bool) :
    innerUnderflow (ks.map LeafEntry.asSeparator) cs isRoot = innerUnderflow ks cs isRoot := by
  rw [innerUnderflow, innerUnderflow, innerPayloadBytes_asSeparator]

theorem inners_pair (up : Ctx LeafEntry H (k + 2)) (pid : PageId) (ks ks' : List LeafEntry)
    (left right : List (BPlusTree LeafEntry (k + 1))) {xs ys : List (BPlusTree LeafEntry (k + 1))} (hchildren : childrenOf ys = childrenOf xs) :
    (up.plug (node pid ks' (left ++ ys ++ right))).inners + xs.length =
      (up.plug (node pid ks (left ++ xs ++ right))).inners + ys.length := by
  rw [Ctx.inners_plug, Ctx.inners_plug, inners_node, inners_node, innersOf_append, innersOf_append,
    innersOf_append, innersOf_append, innersOf_nodes ys, innersOf_nodes xs, hchildren]
  omega

section Pairs
variable {up : Ctx LeafEntry H (k + 2)} {pid : PageId} {ks : List LeafEntry}
  {left right : List (BPlusTree LeafEntry (k + 1))} {a b : BPlusTree LeafEntry (k + 1)}
  {r : NodeRecord LeafEntry} {p₁ p₂ q : ParsedPage}

/-- The children of two nodes are shared out anew between them. -/
theorem writeNodes_spec (ys : List (BPlusTree LeafEntry (k + 1))) {y₁ y₂ : BPlusTree LeafEntry (k + 1)}
    (hp : Pending ty (up.plug (node pid ks (left ++ [a, b] ++ right))) r s)
    (hr : ∃ x ∈ [a, b], r = x.rootRecord) (hchildren : childrenOf ys = childrenOf [a, b])
    (hids : ys.map rootId = [a, b].map rootId)
    (hys : ∀ y ∈ ys, y.keys = minima y.children ∧ y.children ≠ [])
    (hmem : ∀ y, y ∈ [y₁, y₂] ↔ y ∈ ys) (h₁ : Shows p₁ y₁.rootRecord) (h₂ : Shows p₂ y₂.rootRecord)
    (hq : Heads q pid ((left ++ [a, b] ++ right).map rootId)) :
    ReturnsIff (PairFits up pid left ys right)
      (Kept ty (up.plug (node pid ks (left ++ [a, b] ++ right))) s.pager.count s.size)
      ((writePage p₁ >>= fun _ => writePage p₂ >>= fun _ => refreshParent q (pid :: up.path)) s) := by
  have hlength : ys.length = 2 := by
    have hlen := congrArg List.length hids
    simpa using hlen
  have hne : ys ≠ [] := by
    intro hnil
    rw [hnil] at hlength
    cases hlength
  have hfits : (∀ y ∈ ys, Fits y) ↔ Fits y₁ ∧ Fits y₂ := by
    constructor
    · exact fun h => ⟨h y₁ ((hmem y₁).mp (by simp)), h y₂ ((hmem y₂).mp (by simp))⟩
    · intro h y hy
      have hy' := (hmem y).mpr hy
      simp only [List.mem_cons, List.not_mem_nil, or_false] at hy'
      rcases hy' with rfl | rfl
      · exact h.1
      · exact h.2
  have hlt : ∀ y ∈ ys, y.rootId < s.pager.count := by
    intro y hy
    have hid : y.rootId ∈ [a, b].map rootId := hids ▸ List.mem_map_of_mem hy
    obtain ⟨x, hx, hxid⟩ := List.mem_map.mp hid
    rw [← hxid]
    exact hp.child_lt x (List.mem_append_left _ (List.mem_append_right _ hx))
  have hpending : Fits y₁ ∧ Fits y₂ → PendingAt ty up (above pid (left ++ ys ++ right))
      (putNodes s [y₁.rootRecord, y₂.rootRecord]) := by
    intro hboth
    refine hp.rebuild_nodes [a, b] ys hr hchildren hne (fun y hy =>
      ⟨(hys y hy).1, (hys y hy).2, hfits.mpr hboth y hy⟩) 0 ?_ Multiset.nodup_zero
      (fun i hi => absurd hi (Multiset.notMem_zero i)) fun x => ?_
    · rw [add_zero, hids]
    · constructor
      · intro hx
        obtain ⟨y, hy, rfl⟩ := List.mem_map.mp (show x ∈ [y₁, y₂].map rootRecord from hx)
        exact List.mem_map_of_mem ((hmem y).mp hy)
      · intro hx
        obtain ⟨y, hy, rfl⟩ := List.mem_map.mp hx
        exact List.mem_map_of_mem (f := rootRecord) ((hmem y).mpr hy)
  have hheads : Heads q pid ((left ++ ys ++ right).map rootId) := by
    refine ⟨hq.type, hq.pageId, ?_⟩
    rw [hq.children]
    simp only [List.map_append, hids]
  have hspec := writePair_refresh h₁ h₂
    (by rw [rootRecord_id, rootRecord_id]
        exact ⟨hlt y₁ ((hmem y₁).mp (by simp)), hlt y₂ ((hmem y₂).mp (by simp))⟩)
    (fun hf₁ hf₂ => hpending ⟨hf₁, hf₂⟩) hheads
  refine hspec.imp_of (and_congr_left fun _ => hfits.symm) fun hfit s' h => ?_
  obtain ⟨T', hlaid, hregroups, hinners, hsize, hcount⟩ := h
  have hall := (hpending hfit.1).regroups_nodes ks hne hchildren hys
  refine ⟨T', hlaid, hall.trans hregroups, ?_, hsize, hcount⟩
  have hsame := inners_pair up pid ks (minima (left ++ ys ++ right)) left right hchildren
  rw [hlength] at hsame
  rw [hinners]
  simpa using hsame

theorem childrenOf_pair (a b : BPlusTree LeafEntry (k + 1)) :
    childrenOf [a, b] = a.children ++ b.children := by simp [childrenOf]

theorem forall_pair {P : BPlusTree LeafEntry (k + 1) → Prop} {y₁ y₂ : BPlusTree LeafEntry (k + 1)} :
    (∀ y ∈ [y₁, y₂], P y) ↔ P y₁ ∧ P y₂ := by simp

/-- Their children shared out evenly, or they overflow still. -/
theorem redistributeInternalPair_spec {pa pb : ParsedPage}
    (hp : Pending ty (up.plug (node pid ks (left ++ [a, b] ++ right))) r s)
    (hr : ∃ x ∈ [a, b], r = x.rootRecord) (hmany : 2 ≤ (a.children ++ b.children).length)
    (ha : Heads pa a.rootId (a.children.map rootId)) (hb : Heads pb b.rootId (b.children.map rootId))
    (hq : Heads q pid ((left ++ [a, b] ++ right).map rootId)) :
    ReturnsIff (PairFits up pid left (evened a b) right)
      (Kept ty (up.plug (node pid ks (left ++ [a, b] ++ right))) s.pager.count s.size)
      (redistributeInternalPair pa pb q (pid :: up.path) s) := by
  have hplanted := hp.grandchildren_planted hr
  rw [childrenOf_pair] at hplanted
  rw [redistributeInternalPair, ha.children, hb.children, ← List.map_append]
  generalize hcs : a.children ++ b.children = cs at hplanted hmany
  generalize hn : (cs.length + 1) / 2 = n
  have hevened : evened a b = [above a.rootId (cs.take n), above b.rootId (cs.drop n)] := by
    rw [evened, hcs, hn]
  rw [hevened, List.length_map, hn, ← List.map_take, ← List.map_drop]
  have hheadsA : Heads { pa with children := (cs.take n).map rootId } a.rootId
      ((cs.take n).map rootId) := ⟨ha.type, ha.pageId, rfl⟩
  have hheadsB : Heads { pb with children := (cs.drop n).map rootId } b.rootId
      ((cs.drop n).map rootId) := ⟨hb.type, hb.pageId, rfl⟩
  obtain ⟨pa', hrebuildA, hshowsA⟩ := rebuild_heads hheadsA fun c hc =>
    hplanted c (List.mem_of_mem_take hc)
  obtain ⟨pb', hrebuildB, hshowsB⟩ := rebuild_heads hheadsB fun c hc =>
    hplanted c (List.mem_of_mem_drop hc)
  have hspec := writeNodes_spec [above a.rootId (cs.take n), above b.rootId (cs.drop n)] hp hr
    (by rw [childrenOf_pair, childrenOf_pair, node_children, node_children, List.take_append_drop, hcs])
    rfl (forall_pair.mpr ⟨⟨rfl, ?_⟩, ⟨rfl, ?_⟩⟩) (fun y => Iff.rfl) hshowsA hshowsB hq
  · rw [bind_ok hrebuildA, bind_ok hrebuildB]
    by_cases hover : innerOverflow pa'.innerKeys pa'.children = true ∨
        innerOverflow pb'.innerKeys pb'.children = true
    · rw [if_pos (by simpa using hover)]
      intro h
      rw [PairFits, forall_pair] at h
      rw [hshowsA.overflow_iff, hshowsB.overflow_iff] at hover
      exact hover.elim (fun hnot => hnot h.1.1) fun hnot => hnot h.1.2
    · rw [if_neg (by simpa using hover)]
      exact hspec
  · rw [node_children, ne_eq, List.take_eq_nil_iff, not_or, ← List.length_eq_zero_iff]
    omega
  · rw [node_children, ne_eq, List.drop_eq_nil_iff]
    omega

theorem eraseIdx_family {α : Type} (left right : List α) (a b : α) :
    (left ++ a :: b :: right).eraseIdx (left.length + 1) = left ++ a :: right := by
  induction left with
  | nil => rfl
  | cons x left ih => exact congrArg (x :: ·) ih

theorem Kept.mended {T : BPlusTree LeafEntry H} {n size : Nat} {s : DiskBspIndex NodeMap}
    (h : Kept ty T n size s) (hmany : H = 1 → T.leaves.length ≠ 1) : Mended ty T n size s := by
  obtain ⟨T', hlaid, hregroups, hinners, hsize, hcount⟩ := h
  refine ⟨H, T', hlaid, hregroups, hinners.le, Nat.le_refl H, fun h1 hone => ?_, hsize, hcount⟩
  rw [hregroups.leaves] at hone
  exact absurd hone (hmany h1)

/-- Two nodes made one, and the parent mended; or their children evened out. -/
def Joins (up : Ctx LeafEntry H (k + 2)) (pid : PageId) (left : List (BPlusTree LeafEntry (k + 1)))
    (a b : BPlusTree LeafEntry (k + 1)) (right : List (BPlusTree LeafEntry (k + 1))) : Prop :=
  if Fits (mergedNode a b) then Mends up pid (left ++ [mergedNode a b] ++ right)
  else PairFits up pid left (evened a b) right

/-- One node for two. -/
theorem mergePair_spec {pa pb : ParsedPage} {handleParent : ParsedPage → IndexM NodeMap Unit}
    (hp : Pending ty (up.plug (node pid ks (left ++ [a, b] ++ right))) r s)
    (hr : ∃ x ∈ [a, b], r = x.rootRecord) (hmany : 2 ≤ (a.children ++ b.children).length)
    (ha : Heads pa a.rootId (a.children.map rootId)) (hb : Heads pb b.rootId (b.children.map rootId))
    (hq : Heads q pid ((left ++ [a, b] ++ right).map rootId))
    (hrepairs : Repairs ty up pid handleParent) :
    ReturnsIff (Joins up pid left a b right)
      (Mended ty (up.plug (node pid ks (left ++ [a, b] ++ right))) s.pager.count s.size)
      (fixInternalUnderflow.mergePair handleParent pa pb q left.length (pid :: up.path) s) := by
  have hH : H ≠ 1 := by
    have hle := up.le_height
    omega
  have hplanted := hp.grandchildren_planted hr
  rw [childrenOf_pair] at hplanted
  have hheads : Heads { pa with children := pa.children ++ pb.children } a.rootId
      ((a.children ++ b.children).map rootId) :=
    ⟨ha.type, ha.pageId, by rw [ha.children, hb.children, List.map_append]⟩
  obtain ⟨pm, hrebuild, hshows⟩ := rebuild_heads hheads hplanted
  rw [fixInternalUnderflow.mergePair, bind_ok hrebuild, Joins]
  by_cases hfits : Fits (mergedNode a b)
  swap
  · rw [if_pos (hshows.overflow_iff.mpr hfits), if_neg hfits]
    exact (redistributeInternalPair_spec hp hr hmany ha hb hq).imp Iff.rfl fun _ h => h.mended fun h1 => absurd h1 hH
  have hover : ¬ innerOverflow pm.innerKeys pm.children = true := fun h =>
    hshows.overflow_iff.mp h hfits
  rw [if_neg hover, if_pos hfits, bind_ok (writePage_shows hshows hfits)]
  have hchildren : childrenOf [mergedNode a b] = childrenOf [a, b] := by
    rw [childrenOf_pair]
    simp [childrenOf, mergedNode]
  have hnode : ∀ y ∈ [mergedNode a b], y.keys = minima y.children ∧ y.children ≠ [] ∧ Fits y := by
    intro y hy
    rw [List.mem_singleton.mp hy]
    refine ⟨rfl, ?_, hfits⟩
    intro hnil
    have hnil' : a.children ++ b.children = [] := hnil
    rw [hnil'] at hmany
    cases hmany
  have hsub : (([mergedNode a b].map rootId : List Nat) : Multiset Nat) ≤
      (([a, b].map rootId : List Nat) : Multiset Nat) + 0 := by
    rw [add_zero]
    exact Multiset.coe_le.mpr (List.singleton_sublist.mpr List.mem_cons_self).subperm
  have hp2 := hp.rebuild_nodes [a, b] [mergedNode a b] hr hchildren (List.cons_ne_nil _ _) hnode 0
    hsub Multiset.nodup_zero (fun i hi => absurd hi (Multiset.notMem_zero i)) fun x => Iff.rfl
  have hheadsQ : Heads (withoutChild q left.length) pid
      ((left ++ [mergedNode a b] ++ right).map rootId) := by
    refine ⟨hq.type, hq.pageId, ?_⟩
    have herase := eraseIdx_family (left.map rootId) (right.map rootId) a.rootId b.rootId
    rw [List.length_map] at herase
    rw [withoutChild, hq.children]
    simpa [mergedNode] using herase
  have hcount : (s.putNode (mergedNode a b).rootRecord).pager.count = s.pager.count :=
    max_eq_left (hp.child_lt a (by simp))
  have hspec := hrepairs _ _ _ hp2 hheadsQ
  rw [show putNodes s ([mergedNode a b].map rootRecord) = s.putNode (mergedNode a b).rootRecord from rfl,
    hcount] at hspec
  refine hspec.imp Iff.rfl fun s' h => ?_
  obtain ⟨h', T', hlaid, hregroups, hinners, hle, hflat, hsize, hpages⟩ := h
  have hall := hp2.regroups_nodes ks (List.cons_ne_nil _ _) hchildren fun y hy =>
    ⟨(hnode y hy).1, (hnode y hy).2.1⟩
  have hsame : (up.plug (above pid (left ++ [mergedNode a b] ++ right))).inners + 2 =
      (up.plug (node pid ks (left ++ [a, b] ++ right))).inners + 1 :=
    inners_pair up pid ks _ left right hchildren
  exact ⟨h', T', hlaid, hall.trans hregroups, by omega, hle, hflat, hsize, hpages⟩

end Pairs

/-! ### The siblings in their order -/

section Siblings
variable {up : Ctx LeafEntry H (k + 2)} {pid id : PageId} {ks : List LeafEntry}
  {init left right : List (BPlusTree LeafEntry (k + 1))} {d : BPlusTree LeafEntry (k + 1)}
  {cs : List (BPlusTree LeafEntry k)} {p q : ParsedPage}
  {handleParent : ParsedPage → IndexM NodeMap Unit}

theorem lendsChild_iff {d : BPlusTree LeafEntry (k + 1)} :
    (!innerUnderflow (pageOf d.rootRecord).innerKeys (pageOf d.rootRecord).children false &&
      decide ((pageOf d.rootRecord).children.length > 1)) = lendsChild d := by
  have hpage : pageOf d.rootRecord = pageOf (.inner d.rootId d.keys (d.children.map rootId)) := rfl
  rw [hpage, lendsChild]
  simp only [pageOf, innerUnderflow_asSeparator, List.length_map, gt_iff_lt]

theorem children_of_lendsChild {d : BPlusTree LeafEntry (k + 1)} (h : lendsChild d = true) :
    2 ≤ d.children.length := by
  rw [lendsChild, Bool.and_eq_true] at h
  exact of_decide_eq_true h.2

/-- The left sibling lends its last child. -/
theorem borrowLeft_lends
    (hp : PendingAt ty (Ctx.frame pid ks (init ++ [d]) right up) (above id cs) s)
    (hnode : Heads p id (cs.map rootId))
    (hq : Heads q pid ((init ++ [d] ++ above id cs :: right).map rootId))
    (hlends : lendsChild d = true) :
    ReturnsIff (PairFits up pid init (lentByLeft d (above id cs)) right)
      (Kept ty ((Ctx.frame pid ks (init ++ [d]) right up).plug (above id cs)) s.pager.count s.size)
      (fixInternalUnderflow.borrowLeft handleParent p q (init ++ [d]).length (pid :: up.path) s) := by
  have hd := hp.read_sibling (rootRecord_mem _)
    (.inl (List.mem_append_right init (List.mem_singleton_self d)))
  rw [← left_sibling init right (above id cs) d, ← hq.children] at hd
  have hplug : (Ctx.frame pid ks (init ++ [d]) right up).plug (above id cs) =
      up.plug (node pid ks (init ++ [d, above id cs] ++ right)) := by
    rw [Ctx.plug]
    simp
  have hfamily : init ++ [d] ++ above id cs :: right = init ++ [d, above id cs] ++ right := by simp
  rw [PendingAt, hplug] at hp
  rw [hplug]
  rw [hfamily] at hq
  have hr : ∃ x ∈ [d, above id cs], (above id cs).rootRecord = x.rootRecord :=
    ⟨_, List.mem_cons_of_mem _ List.mem_cons_self, rfl⟩
  have hplanted := hp.grandchildren_planted hr
  rw [childrenOf_pair, node_children] at hplanted
  have htwo := children_of_lendsChild hlends
  rcases List.eq_nil_or_concat d.children with hds | ⟨others, moved, hds⟩
  · rw [hds] at htwo
    cases htwo
  rw [List.concat_eq_append] at hds
  rw [hds] at hplanted htwo
  have hothers : others ≠ [] := by
    intro hnil
    rw [hnil] at htwo
    exact absurd htwo (by simp)
  have hdpage : (pageOf d.rootRecord).children = (others ++ [moved]).map rootId := by
    rw [← hds]
    rfl
  have hheads : Heads { p with children := (pageOf d.rootRecord).children.getLastD 0 :: p.children } id
      ((moved :: cs).map rootId) := by
    refine ⟨hnode.type, hnode.pageId, ?_⟩
    rw [hnode.children, hdpage]
    simp
  have hheadsD : Heads { pageOf d.rootRecord with children := (pageOf d.rootRecord).children.dropLast }
      d.rootId (others.map rootId) := by
    refine ⟨NodeType.noConfusion, rfl, ?_⟩
    rw [hdpage]
    simp
  obtain ⟨pd, hrebuildD, hshowsD⟩ := rebuild_heads hheadsD fun c hc => hplanted c (by simp [hc])
  obtain ⟨px, hrebuildX, hshowsX⟩ := rebuild_heads hheads fun c hc => hplanted c (by
    rcases List.mem_cons.mp hc with rfl | hc
    · simp
    · simp [hc])
  have hlent : lentByLeft d (above id cs) = [above d.rootId others, above id (moved :: cs)] := by
    rw [lentByLeft, hds]
    simp
  rw [hlent]
  rw [fixInternalUnderflow.borrowLeft, if_pos (by simp), bind_ok hd,
    if_neg (shows_pageOf d.rootRecord).heads.type, lendsChild_iff, if_pos hlends, bind_ok hrebuildD,
    bind_ok hrebuildX]
  exact writeNodes_spec [above d.rootId others, above id (moved :: cs)] hp hr
    (by simp [hds]) rfl
    (forall_pair.mpr ⟨⟨rfl, hothers⟩, ⟨rfl, List.cons_ne_nil _ _⟩⟩) (fun y => Iff.rfl) hshowsD hshowsX
    hq

/-- The right sibling lends its first child. -/
theorem borrowRight_lends (hp : PendingAt ty (Ctx.frame pid ks left (d :: right) up) (above id cs) s)
    (hnode : Heads p id (cs.map rootId))
    (hq : Heads q pid ((left ++ above id cs :: d :: right).map rootId))
    (hlends : lendsChild d = true) :
    ReturnsIff (PairFits up pid left (lentByRight (above id cs) d) right)
      (Kept ty ((Ctx.frame pid ks left (d :: right) up).plug (above id cs)) s.pager.count s.size)
      (fixInternalUnderflow.borrowRight handleParent p q left.length (pid :: up.path) s) := by
  have hd := hp.read_sibling (rootRecord_mem _) (.inr (List.mem_cons_self (a := d)))
  rw [← right_sibling left right (above id cs) d, ← hq.children] at hd
  have hplug : (Ctx.frame pid ks left (d :: right) up).plug (above id cs) =
      up.plug (node pid ks (left ++ [above id cs, d] ++ right)) := by
    rw [Ctx.plug]
    simp
  have hfamily : left ++ above id cs :: d :: right = left ++ [above id cs, d] ++ right := by simp
  rw [PendingAt, hplug] at hp
  rw [hplug]
  rw [hfamily] at hq
  have hr : ∃ x ∈ [above id cs, d], (above id cs).rootRecord = x.rootRecord :=
    ⟨_, List.mem_cons_self, rfl⟩
  have hplanted := hp.grandchildren_planted hr
  rw [childrenOf_pair, node_children] at hplanted
  have htwo := children_of_lendsChild hlends
  cases hds : d.children with
  | nil =>
    rw [hds] at htwo
    cases htwo
  | cons moved others =>
    rw [hds] at hplanted htwo
    have hothers : others ≠ [] := by
      intro hnil
      rw [hnil] at htwo
      exact absurd htwo (by simp)
    have hdpage : (pageOf d.rootRecord).children = (moved :: others).map rootId := by
      rw [← hds]
      rfl
    have hheads : Heads { p with children := p.children ++ [(pageOf d.rootRecord).children.headD 0] }
        id ((cs ++ [moved]).map rootId) := by
      refine ⟨hnode.type, hnode.pageId, ?_⟩
      rw [hnode.children, hdpage]
      simp
    have hheadsD : Heads { pageOf d.rootRecord with children := (pageOf d.rootRecord).children.tail }
        d.rootId (others.map rootId) := by
      refine ⟨NodeType.noConfusion, rfl, ?_⟩
      rw [hdpage]
      rfl
    obtain ⟨pd, hrebuildD, hshowsD⟩ := rebuild_heads hheadsD fun c hc => hplanted c (by simp [hc])
    obtain ⟨px, hrebuildX, hshowsX⟩ := rebuild_heads hheads fun c hc => hplanted c (by
      rcases List.mem_append.mp hc with hc | hc
      · simp [hc]
      · rw [List.mem_singleton.mp hc]
        simp)
    have hlent : lentByRight (above id cs) d = [above id (cs ++ [moved]), above d.rootId others] := by
      rw [lentByRight, hds]
      rfl
    rw [hlent]
    rw [fixInternalUnderflow.borrowRight, if_pos (by simp [hq.children]), bind_ok hd,
      if_neg (shows_pageOf d.rootRecord).heads.type, lendsChild_iff, if_pos hlends, bind_ok hrebuildD,
      bind_ok hrebuildX]
    refine writeNodes_spec [above id (cs ++ [moved]), above d.rootId others] hp hr
      (by simp [hds]) rfl
      (forall_pair.mpr ⟨⟨rfl, by simp⟩, ⟨rfl, hothers⟩⟩) (fun y => ?_) hshowsD hshowsX hq
    simp [or_comm]

theorem borrowLeft_next (hp : PendingAt ty (Ctx.frame pid ks left right up) (above id cs) s)
    (hq : q.children = (left ++ above id cs :: right).map rootId)
    (h : ∀ d ∈ left.getLast?, lendsChild d = false) (path : List PageId) :
    fixInternalUnderflow.borrowLeft handleParent p q left.length path s =
      fixInternalUnderflow.borrowRight handleParent p q left.length path s := by
  rw [fixInternalUnderflow.borrowLeft]
  rcases List.eq_nil_or_concat left with rfl | ⟨init, d, hleft⟩
  · exact congrFun (if_neg (lt_irrefl 0)) s
  · rw [List.concat_eq_append] at hleft
    subst hleft
    have hd := hp.read_sibling (rootRecord_mem _)
      (.inl (List.mem_append_right init (List.mem_singleton_self d)))
    rw [← left_sibling init right (above id cs) d, ← hq] at hd
    have hno : lendsChild d = false := h d (by simp)
    rw [if_pos (by simp), bind_ok hd, if_neg (shows_pageOf d.rootRecord).heads.type, lendsChild_iff,
      if_neg (by rw [hno]; decide)]

theorem borrowRight_next (hp : PendingAt ty (Ctx.frame pid ks left right up) (above id cs) s)
    (hq : q.children = (left ++ above id cs :: right).map rootId)
    (h : ∀ d ∈ right.head?, lendsChild d = false) (path : List PageId) :
    fixInternalUnderflow.borrowRight handleParent p q left.length path s =
      fixInternalUnderflow.merge handleParent p q left.length path s := by
  rw [fixInternalUnderflow.borrowRight]
  cases right with
  | nil => exact congrFun (if_neg (by simp [hq])) s
  | cons d rest =>
    have hd := hp.read_sibling (rootRecord_mem _) (.inr (List.mem_cons_self (a := d)))
    rw [← right_sibling left rest (above id cs) d, ← hq] at hd
    rw [if_pos (by simp [hq]), bind_ok hd, if_neg (shows_pageOf d.rootRecord).heads.type,
      lendsChild_iff, if_neg (by rw [h d rfl]; decide)]

theorem merge_left (hp : PendingAt ty (Ctx.frame pid ks (init ++ [d]) right up) (above id cs) s)
    (hnode : Heads p id (cs.map rootId)) (hne : cs ≠ [])
    (hq : Heads q pid ((init ++ [d] ++ above id cs :: right).map rootId))
    (hrepairs : Repairs ty up pid handleParent) :
    ReturnsIff (Joins up pid init d (above id cs) right)
      (Mended ty ((Ctx.frame pid ks (init ++ [d]) right up).plug (above id cs)) s.pager.count s.size)
      (fixInternalUnderflow.merge handleParent p q (init ++ [d]).length (pid :: up.path) s) := by
  have hd := hp.read_sibling (rootRecord_mem _)
    (.inl (List.mem_append_right init (List.mem_singleton_self d)))
  rw [← left_sibling init right (above id cs) d, ← hq.children] at hd
  have hplug : (Ctx.frame pid ks (init ++ [d]) right up).plug (above id cs) =
      up.plug (node pid ks (init ++ [d, above id cs] ++ right)) := by
    rw [Ctx.plug]
    simp
  have hfamily : init ++ [d] ++ above id cs :: right = init ++ [d, above id cs] ++ right := by simp
  rw [PendingAt, hplug] at hp
  rw [hplug]
  rw [hfamily] at hq
  have hmany : 2 ≤ (d.children ++ (above id cs).children).length := by
    have hsibling := (jointed_node.mp (up.jointed_hole hp.jointed)).2 d (by simp)
    have hone := List.length_pos_of_ne_nil hsibling.branching.1
    have htwo := List.length_pos_of_ne_nil hne
    rw [List.length_append, node_children]
    omega
  rw [fixInternalUnderflow.merge, if_pos (by simp), bind_ok hd, List.length_append,
    List.length_singleton, Nat.add_sub_cancel]
  exact mergePair_spec hp ⟨_, List.mem_cons_of_mem _ List.mem_cons_self, rfl⟩ hmany
    (shows_pageOf d.rootRecord).heads hnode hq hrepairs

theorem merge_right (hp : PendingAt ty (Ctx.frame pid ks [] (d :: right) up) (above id cs) s)
    (hnode : Heads p id (cs.map rootId)) (hne : cs ≠ [])
    (hq : Heads q pid ((above id cs :: d :: right).map rootId))
    (hrepairs : Repairs ty up pid handleParent) :
    ReturnsIff (Joins up pid [] (above id cs) d right)
      (Mended ty ((Ctx.frame pid ks [] (d :: right) up).plug (above id cs)) s.pager.count s.size)
      (fixInternalUnderflow.merge handleParent p q 0 (pid :: up.path) s) := by
  have hd := hp.read_sibling (rootRecord_mem _) (.inr (List.mem_cons_self (a := d)))
  have hget : q.children.getD 1 0 = d.rootId := by
    rw [hq.children]
    rfl
  rw [← hget] at hd
  have hplug : (Ctx.frame pid ks [] (d :: right) up).plug (above id cs) =
      up.plug (node pid ks ([] ++ [above id cs, d] ++ right)) := by
    rw [Ctx.plug]
    simp
  rw [PendingAt, hplug] at hp
  rw [hplug]
  have hmany : 2 ≤ ((above id cs).children ++ d.children).length := by
    have hsibling := (jointed_node.mp (up.jointed_hole hp.jointed)).2 d (by simp)
    have hone := List.length_pos_of_ne_nil hsibling.branching.1
    have htwo := List.length_pos_of_ne_nil hne
    rw [List.length_append, node_children]
    omega
  rw [fixInternalUnderflow.merge, if_neg (lt_irrefl 0), if_neg (by simp [hq.children]), bind_ok hd]
  exact mergePair_spec hp ⟨_, List.mem_cons_self, rfl⟩ hmany hnode (shows_pageOf d.rootRecord).heads
    hq hrepairs

/-- What is done about a node that is too empty. -/
def Remedies (up : Ctx LeafEntry H (k + 2)) (pid : PageId) (left right : List (BPlusTree LeafEntry (k + 1)))
    (x : BPlusTree LeafEntry (k + 1)) : Prop :=
  match remedy lendsChild left right with
  | .fromLeft init d => PairFits up pid init (lentByLeft d x) right
  | .fromRight d rest => PairFits up pid left (lentByRight x d) rest
  | .joinLeft init d => Joins up pid init d x right
  | .joinRight d rest => Joins up pid left x d rest
  | .alone => False

theorem borrowLeft_spec (hp : PendingAt ty (Ctx.frame pid ks left right up) (above id cs) s)
    (hnode : Heads p id (cs.map rootId)) (hne : cs ≠ [])
    (hq : Heads q pid ((left ++ above id cs :: right).map rootId))
    (hrepairs : Repairs ty up pid handleParent) :
    ReturnsIff (Remedies up pid left right (above id cs))
      (Mended ty ((Ctx.frame pid ks left right up).plug (above id cs)) s.pager.count s.size)
      (fixInternalUnderflow.borrowLeft handleParent p q left.length (pid :: up.path) s) := by
  have hH : H ≠ 1 := by
    have hle := up.le_height
    omega
  rw [Remedies]
  rcases List.eq_nil_or_concat left with rfl | ⟨init, d, hleft⟩
  · rw [borrowLeft_next hp hq.children (by simp)]
    cases right with
    | nil =>
      rw [borrowRight_next hp hq.children (by simp), fixInternalUnderflow.merge,
        if_neg (by simp), if_pos (by simp [hq.children])]
      exact fun h => h
    | cons r rest =>
      rw [remedy_nil]
      by_cases hr : lendsChild r = true
      · rw [if_pos hr]
        exact (borrowRight_lends hp hnode hq hr).imp Iff.rfl fun _ h => h.mended fun h1 => absurd h1 hH
      · rw [if_neg hr, borrowRight_next hp hq.children (by simpa using hr)]
        exact merge_right hp hnode hne hq hrepairs
  · rw [List.concat_eq_append] at hleft
    subst hleft
    by_cases hd : lendsChild d = true
    · rw [remedy_fromLeft hd]
      exact (borrowLeft_lends hp hnode hq hd).imp Iff.rfl fun _ h => h.mended fun h1 => absurd h1 hH
    · rw [borrowLeft_next hp hq.children (by simpa using hd)]
      have hd' : lendsChild d = false := by simpa using hd
      by_cases hr : ∀ r ∈ right.head?, lendsChild r = false
      · rw [remedy_joinLeft hd' hr, borrowRight_next hp hq.children hr]
        exact merge_left hp hnode hne hq hrepairs
      · cases right with
        | nil => exact absurd (by simp) hr
        | cons r rest =>
          have hr' : lendsChild r = true := by simpa using hr
          rw [remedy_fromRight_left hd' hr']
          exact (borrowRight_lends hp hnode hq hr').imp Iff.rfl fun _ h => h.mended fun h1 => absurd h1 hH

end Siblings

/-! ### The climb -/

/-- The root is around the hole. -/
theorem frame_rootId_mem : ∀ {H k : Nat} (up : Ctx LeafEntry H (k + 1)) (pid hole : Nat)
    (ks : List LeafEntry) (left right : List (BPlusTree LeafEntry k)),
    (Ctx.frame pid ks left right up).rootId hole ∈ (Ctx.frame pid ks left right up).ids
  | _, _, .top, pid, hole, ks, left, right => by
    rw [Ctx.rootId, Ctx.rootId, Ctx.ids, Ctx.records, Multiset.map_cons]
    exact Multiset.mem_cons_self _ _
  | _, _, .frame pid' ks' left' right' up, pid, hole, ks, left, right => by
    have hup := frame_rootId_mem up pid' pid ks' left' right'
    rw [Ctx.rootId, Ctx.ids, Ctx.records, Multiset.map_cons, Multiset.map_add, Ctx.map_id_records]
    exact Multiset.mem_cons_of_mem (Multiset.mem_add.mpr (.inr hup))

/-- The hole is not the root. -/
theorem rootId_ne_root {pid : PageId} {ks : List LeafEntry} {left right : List (BPlusTree LeafEntry k)}
    {up : Ctx LeafEntry H (k + 1)} {x : BPlusTree LeafEntry k}
    (hnodup : ((Ctx.frame pid ks left right up).plug x).ids.Nodup) :
    x.rootId ≠ ((Ctx.frame pid ks left right up).plug x).rootId := by
  rw [Ctx.ids_plug] at hnodup
  have hdisjoint : ∀ {i : Nat}, i ∈ (Ctx.frame pid ks left right up).ids → i ∉ x.ids :=
    Multiset.disjoint_left.mp (Multiset.nodup_add.mp hnodup).2.2
  rw [Ctx.rootId_plug]
  exact fun heq => hdisjoint (frame_rootId_mem up pid x.rootId ks left right) (heq ▸ rootId_mem_ids x)

/-- A node whose children changed, and everything above it. -/
theorem handleInternalAfterChildRemoved_spec : ∀ {H k : Nat} (ctx : Ctx LeafEntry H (k + 1))
    (id : PageId), Repairs ty ctx id (handleInternalAfterChildRemoved (id :: ctx.path))
  | _, k, .top, id => by
    intro cs s q hp hq
    have hroot : s.rootPage = id := by
      rw [hp.root, Ctx.plug]
      rfl
    obtain ⟨q', hrebuild, hshows⟩ := hp.refresh hq
    have hid : q'.pageId = id := hshows.pageId
    have hchildren : q'.children = cs.map rootId := hshows.heads.children
    rw [Ctx.path, handleInternalAfterChildRemoved, if_neg hq.type, if_neg (fun h => h hq.pageId.symm), bind_ok hrebuild, get_bind_apply, if_pos (hid.trans hroot.symm),
      hchildren, List.length_map, Mends]
    by_cases hone : cs.length = 1
    · obtain ⟨c, rfl⟩ := List.length_eq_one_iff.mp hone
      obtain ⟨s', hrun, hlaid, hsize, hcount⟩ := promoteSingleChildRoot_spec hp hshows.heads
      rw [if_pos hone, hrun]
      refine ⟨.inl hone, k, c, hlaid, ⟨?_, fun hs => ⟨?_, ?_⟩⟩, ?_, Nat.le_succ k, ?_, hsize, hcount⟩
      · rw [Ctx.plug, leaves_node]
        simp [leavesOf]
      · rw [Ctx.plug] at hs
        exact (ordered_node.mp hs.ordered).2 c (List.mem_singleton_self c)
      · have hasc := hs.ascending
        rw [Ctx.plug, entries_node] at hasc
        exact ascending_child hasc c (List.mem_singleton_self c)
      · rw [Ctx.plug, inners_node]
        simp [innersOf]
      · exact fun h1 _ => Nat.succ.inj h1
    · rw [if_neg hone]
      by_cases hfits : Fits (above id cs)
      · rw [writePage_shows hshows hfits]
        refine ⟨.inr hfits, k + 1, _, hp.settle hfits hp.filled_of_inner, .refl _, Nat.le_refl _,
          Nat.le_refl _, fun h1 hleaves => absurd ?_ hone, rfl, max_eq_left hp.lt⟩
        have hk : k = 0 := Nat.succ.inj h1
        subst hk
        rw [Ctx.plug, leaves_node] at hleaves
        rw [← length_leavesOf cs, hleaves]
      · obtain ⟨e, hthrow⟩ := writePage_shows_overflows (s := s) hshows ((Bool.not_eq_false _).mp hfits)
        rw [hthrow]
        exact fun h => h.elim hone hfits
  | H, k, .frame pid ks left right up, id => by
    intro cs s q hp hq
    have hH : H ≠ 1 := by
      have hle := up.le_height
      omega
    have hne : cs ≠ [] :=
      ((Ctx.jointed_hole hp.jointed).branching : Branching (above id cs)).1
    have hnotRoot : id ≠ s.rootPage := by
      rw [hp.root]
      exact rootId_ne_root hp.nodup
    obtain ⟨q', hrebuild, hshows⟩ := hp.refresh hq
    have hid : q'.pageId = id := hshows.pageId
    have hchildren : q'.children = cs.map rootId := hshows.heads.children
    have hunder : innerUnderflow q'.innerKeys q'.children false =
        innerUnderflow (minima cs) (cs.map rootId) false := by
      have hkeys := congrArg ParsedPage.innerKeys hshows
      rw [ParsedPage.stored, if_neg hshows.heads.type] at hkeys
      have hkeys' : q'.innerKeys.map LeafEntry.asSeparator =
          (minima cs).map LeafEntry.asSeparator := hkeys
      rw [hchildren, ← innerUnderflow_asSeparator, hkeys', innerUnderflow_asSeparator]
    have hread := hp.read_parent (rootRecord_mem _)
    have hparent : Heads (pageOf (.inner pid ks ((left ++ above id cs :: right).map rootId))) pid
        ((left ++ above id cs :: right).map rootId) := (shows_pageOf _).heads
    have hindex : (pageOf (.inner pid ks ((left ++ above id cs :: right).map rootId))).children.idxOf?
        q'.pageId = some left.length := by
      rw [hid]
      exact hp.hole_index
    rw [Ctx.path, handleInternalAfterChildRemoved, if_neg hq.type, if_neg (fun h => h hq.pageId.symm), bind_ok hrebuild, get_bind_apply,
      if_neg (by rw [hid]; exact hnotRoot), hunder, Mends]
    by_cases hempty : innerUnderflow (minima cs) (cs.map rootId) false = true
    · rw [if_pos hempty, if_pos hempty, fixInternalUnderflow, if_neg (fun h => h hid.symm), get_bind_apply, if_neg (by rw [hid]; exact hnotRoot),
        bind_ok hread, if_neg hparent.type, hindex]
      exact borrowLeft_spec hp hshows.heads hne hparent
        (handleInternalAfterChildRemoved_spec up pid)
    · rw [if_neg hempty, if_neg hempty]
      by_cases hfits : Fits (above id cs)
      · have hlaid := hp.settle hfits hp.filled_of_inner
        have hcount : (s.putNode (above id cs).rootRecord).pager.count = s.pager.count :=
          max_eq_left hp.lt
        have hpropagate := propagateSubtreeMinChange_spec (.frame pid ks left right up) hlaid
          (hlaid.planted hlaid.entries_ne_nil)
        rw [hcount, Ctx.path] at hpropagate
        rw [bind_ok (writePage_shows hshows hfits), hid]
        exact hpropagate.imp (and_iff_right hfits).symm fun _ h => h.mended fun h1 => absurd h1 hH
      · obtain ⟨e, hthrow⟩ := writePage_shows_overflows (s := s) hshows ((Bool.not_eq_false _).mp hfits)
        rw [bind_error hthrow]
        exact fun h => hfits h.1

end CwDb.Storage.DiskBspIndex
