import CwDb.Storage.Index.Pending
import Mathlib.Algebra.Order.BigOperators.Group.List
import Mathlib.Data.List.Sort

/-! How an inner node that overflows is relieved.

Moving a child to or from a sibling never helps, since the code always adds to the node
that is too full. What is left is to deal the children of the node and a sibling out over
three nodes; the parent, which then has one child more, is written or split in turn
(`Settles`). A node without siblings cannot be split at all. The leaves and their order
stay as they are (`Holds`). -/
namespace CwDb.Storage.DiskBspIndex
open Foundation BPlusTree

variable {ty : DataType} {H k : Nat} {s : DiskBspIndex NodeMap}

/-! ### Siblings of a child -/

section Siblings
variable {left right : List (BPlusTree LeafEntry k)} {x d : BPlusTree LeafEntry k}

theorem right_sibling (left right : List (BPlusTree LeafEntry k)) (x d : BPlusTree LeafEntry k) :
    ((left ++ x :: d :: right).map rootId).getD (left.length + 1) 0 = d.rootId := by
  rw [List.getD_eq_getElem?_getD, List.getElem?_map, List.getElem?_append_right (Nat.le_add_right _ _),
    Nat.add_sub_cancel_left]
  rfl

theorem left_sibling (left right : List (BPlusTree LeafEntry k)) (x d : BPlusTree LeafEntry k) :
    ((left ++ [d] ++ x :: right).map rootId).getD ((left ++ [d]).length - 1) 0 = d.rootId := by
  rw [List.length_append, List.length_singleton, Nat.add_sub_cancel, List.append_assoc,
    List.getD_eq_getElem?_getD, List.getElem?_map, List.singleton_append, getElem?_hole]
  rfl

/-- The page of a parent. -/
theorem heads_parent (pid : PageId) (ks : List LeafEntry) (cs : List (BPlusTree LeafEntry k)) :
    Heads (pageOf (.inner pid ks (cs.map rootId))) pid (cs.map rootId) := (shows_pageOf _).heads

/-- A child is found in it. -/
theorem PendingAt.parent_index {up : Ctx LeafEntry H (k + 1)} {pid : PageId} {ks : List LeafEntry}
    {p : ParsedPage} (hp : PendingAt ty (.frame pid ks left right up) x s)
    (hpage : Shows p x.rootRecord) :
    (pageOf (.inner pid ks ((left ++ x :: right).map rootId))).children.idxOf? p.pageId =
      some left.length := by
  rw [hpage.pageId, rootRecord_id]
  exact Pending.hole_index hp

end Siblings

/-- Entries by key, those of equal keys as they came. -/
def sortedRun (es : List LeafEntry) : List LeafEntry :=
  es.insertionSort fun a b => a.value ≤ b.value

/-- Entries dealt out over two leaves and a new one between them. -/
def dealOver (n : PageId) (a b : Leaf LeafEntry) (es : List LeafEntry) : List (Leaf LeafEntry) :=
  let (first, second, third) := threeWayRuns es
  [{ a with entries := first, next := n }, { id := n, next := b.id, entries := second },
    { b with entries := third }]

/-- Two leaves dealt out over three, the middle one in a new page. -/
def dealtLeaves (n : PageId) (a b : Leaf LeafEntry) : List (Leaf LeafEntry) :=
  dealOver n a b (sortedRun (a.entries ++ b.entries))

/-- Two inner nodes dealt out over three. -/
def dealtNodes (n : PageId) (a b : BPlusTree LeafEntry (k + 1)) : List (BPlusTree LeafEntry (k + 1)) :=
  let (first, second, third) := threeWayRuns (a.children ++ b.children)
  [above a.rootId first, above n second, above b.rootId third]

def dealt (n : PageId) : {k : Nat} → BPlusTree LeafEntry k → BPlusTree LeafEntry k →
    List (BPlusTree LeafEntry k)
  | 0, a, b => leavesAt (dealtLeaves n a b)
  | _ + 1, a, b => dealtNodes n a b

/-- An overflowing node can be split with a sibling, the right one if there is one, and
the parent takes the new child. -/
def Settles : {H k : Nat} → PageId → Ctx LeafEntry H k → BPlusTree LeafEntry k → Prop
  | _, _, _, .top, x => Fits x
  | _, _, n, .frame pid _ left right up, x => Fits x ∨
    match right, left.getLast? with
    | d :: rest, _ => (∀ y ∈ dealt n x d, Fits y) ∧
        Settles (n + 1) up (above pid (left ++ dealt n x d ++ rest))
    | [], some d => (∀ y ∈ dealt n d x, Fits y) ∧
        Settles (n + 1) up (above pid (left.dropLast ++ dealt n d x ++ []))
    | [], none => False

section Runs
variable {α β : Type}

theorem threeWayRuns_append (xs : List α) :
    (threeWayRuns xs).1 ++ ((threeWayRuns xs).2.1 ++ (threeWayRuns xs).2.2) = xs := by
  simp only [threeWayRuns]
  rw [← List.drop_drop, List.take_append_drop, List.take_append_drop]

theorem threeWayRuns_map (f : α → β) (xs : List α) : threeWayRuns (xs.map f) =
    ((threeWayRuns xs).1.map f, (threeWayRuns xs).2.1.map f, (threeWayRuns xs).2.2.map f) := by
  simp only [threeWayRuns, List.length_map, List.map_take, List.map_drop]

theorem threeWayRuns_ne_nil {xs : List α} (h : 3 ≤ xs.length) :
    (threeWayRuns xs).1 ≠ [] ∧ (threeWayRuns xs).2.1 ≠ [] ∧ (threeWayRuns xs).2.2 ≠ [] := by
  simp only [threeWayRuns, threeWayCounts, ne_eq, ← List.length_eq_zero_iff, List.length_take,
    List.length_drop]
  omega

theorem insertIdx_family (left right : List α) (a b : α) :
    (left ++ a :: right).insertIdx (left.length + 1) b = left ++ a :: b :: right := by
  induction left with
  | nil => rfl
  | cons x left ih => exact congrArg (x :: ·) ih

end Runs

variable {up : Ctx LeafEntry H (k + 2)} {pid : Nat} {ks : List LeafEntry}
    {left right : List (BPlusTree LeafEntry (k + 1))} {a b : BPlusTree LeafEntry (k + 1)}

theorem Settles.of_fits {ctx : Ctx LeafEntry H k} {x : BPlusTree LeafEntry k} {n : PageId}
    (h : Fits x) : Settles n ctx x := by
  cases ctx with
  | top => rwa [Settles]
  | frame pid ks left right up =>
    unfold Settles
    exact .inl h

/-- What the recursive call on the parent is to do. -/
def SplitsOn (ty : DataType) (up : Ctx LeafEntry H (k + 1)) (pid : PageId)
    (splitParent : ParsedPage → IndexM NodeMap Unit) : Prop :=
  ∀ (cs : List (BPlusTree LeafEntry k)) (s : DiskBspIndex NodeMap) (q : ParsedPage),
    PendingAt ty up (above pid cs) s → Shows q (above pid cs).rootRecord → ¬ Fits (above pid cs) →
      ReturnsIff (Settles s.pager.count up (above pid cs))
        (Holds ty (up.plug (above pid cs)) s.size) (splitParent q s)

/-- The parent is written if it fits, and split if not. -/
theorem place_parent {k : Nat} {up : Ctx LeafEntry H (k + 1)} {cs : List (BPlusTree LeafEntry k)}
    {q : ParsedPage} {splitParent : ParsedPage → IndexM NodeMap Unit}
    (hp : PendingAt ty up (above pid cs) s) (hq : Shows q (above pid cs).rootRecord)
    (hsplit : SplitsOn ty up pid splitParent) :
    ReturnsIff (Settles s.pager.count up (above pid cs))
      (Holds ty (up.plug (above pid cs)) s.size)
      ((if !innerOverflow q.innerKeys q.children then writePage q else splitParent q) s) := by
  have hoverflow := hq.overflow_iff
  by_cases hfits : Fits (above pid cs)
  · have hwrite : writePage q s = .ok () (s.putNode (above pid cs).rootRecord) :=
      writePage_shows hq hfits
    rw [if_pos (by rwa [Bool.not_eq_true', ← Bool.not_eq_true, hoverflow, not_not]), hwrite]
    exact ⟨.of_fits hfits, _, hp.settle hfits hp.filled_of_inner, .refl _, rfl⟩
  · rw [if_neg (by rwa [Bool.not_eq_true', Bool.not_eq_false, hoverflow])]
    exact hsplit cs s q hp hq hfits

theorem place_child {k : Nat} {up : Ctx LeafEntry H (k + 1)} {cs : List (BPlusTree LeafEntry k)}
    {q : ParsedPage} {splitParent : ParsedPage → IndexM NodeMap Unit}
    (hp : PendingAt ty up (above pid cs) s) (hq : Heads q pid (cs.map rootId))
    (hsplit : SplitsOn ty up pid splitParent) :
    ReturnsIff (Settles s.pager.count up (above pid cs))
      (Holds ty (up.plug (above pid cs)) s.size)
      ((rebuildInternalKeys q >>= fun parent =>
        if !innerOverflow parent.innerKeys parent.children then writePage parent
        else splitParent parent) s) := by
  obtain ⟨q', hrebuild, hshows⟩ := hp.refresh hq
  rw [bind_ok hrebuild]
  exact place_parent hp hshows hsplit

/-- After a page was allocated, and pages of the store were written. -/
theorem count_allocated {rs : List (NodeRecord LeafEntry)} (h : ∀ r ∈ rs, r.id ≤ s.pager.count) :
    (putNodes { s with pager := s.pager.put s.pager.count none } rs).pager.count =
      s.pager.count + 1 := by
  have hcount : max s.pager.count (s.pager.count + 1) = s.pager.count + 1 :=
    max_eq_right (Nat.le_succ _)
  rw [putNodes_count]
  · exact hcount
  · intro r hr
    show r.id < max s.pager.count (s.pager.count + 1)
    rw [hcount]
    exact Nat.lt_succ_of_le (h r hr)

theorem ids_dealt (i j n : Nat) :
    (([i, n, j] : List Nat) : Multiset Nat) ≤ (([i, j] : List Nat) : Multiset Nat) + {n} := by
  show _ ≤ (([i, j] ++ [n] : List Nat) : Multiset Nat)
  exact Multiset.coe_le.mpr ((List.Perm.swap j n []).cons i).subperm

/-- The outer two of the three nodes fit. -/
def OuterFit (a b : BPlusTree LeafEntry (k + 1)) : Prop :=
  Fits (above a.rootId (threeWayRuns (a.children ++ b.children)).1) ∧
    Fits (above b.rootId (threeWayRuns (a.children ++ b.children)).2.2)

instance (a b : BPlusTree LeafEntry (k + 1)) : Decidable (OuterFit a b) :=
  inferInstanceAs (Decidable (_ ∧ _))

/-- The outer two are made in memory; only if they fit is a page allocated for the middle one. -/
theorem splitInternalPair_outer {r : NodeRecord LeafEntry} {pa pb : ParsedPage}
    (splitParent : ParsedPage → IndexM NodeMap Unit) (q : ParsedPage) (i : Nat)
    (hp : Pending ty (up.plug (node pid ks (left ++ [a, b] ++ right))) r s)
    (hr : ∃ x ∈ [a, b], r = x.rootRecord)
    (ha : Heads pa a.rootId (a.children.map rootId)) (hb : Heads pb b.rootId (b.children.map rootId)) :
    ∃ pa' pb', Shows pa' (above a.rootId (threeWayRuns (a.children ++ b.children)).1).rootRecord ∧
      Shows pb' (above b.rootId (threeWayRuns (a.children ++ b.children)).2.2).rootRecord ∧
      splitInternalPair splitParent pa pb q i s =
        if OuterFit a b then
          (allocateNodePage >>= fun m =>
            rebuildInternalKeys { pageId := m, type := .inner
                                  children := (threeWayRuns (a.children ++ b.children)).2.1.map rootId } >>=
              fun middle => writePage pa' >>= fun _ => writePage middle >>= fun _ => writePage pb' >>= fun _ =>
              rebuildInternalKeys { q with children := q.children.insertIdx (i + 1) m } >>= fun parent =>
                if !innerOverflow parent.innerKeys parent.children then writePage parent
                else splitParent parent) s
        else .error (.lengthError "Redistributed internal siblings do not fit") s := by
  have hplanted := hp.grandchildren_planted hr
  have hchildren : childrenOf [a, b] = a.children ++ b.children := by simp [childrenOf]
  rw [hchildren] at hplanted
  have hruns := threeWayRuns_append (a.children ++ b.children)
  have hheadsA : Heads { pa with children := (threeWayRuns (a.children ++ b.children)).1.map rootId }
      a.rootId ((threeWayRuns (a.children ++ b.children)).1.map rootId) := ⟨ha.type, ha.pageId, rfl⟩
  have hheadsB : Heads { pb with children := (threeWayRuns (a.children ++ b.children)).2.2.map rootId }
      b.rootId ((threeWayRuns (a.children ++ b.children)).2.2.map rootId) := ⟨hb.type, hb.pageId, rfl⟩
  obtain ⟨pa', hrebuildA, hshowsA⟩ := rebuild_heads hheadsA fun c hc =>
    hplanted c (by rw [← hruns]; simp [hc])
  obtain ⟨pb', hrebuildB, hshowsB⟩ := rebuild_heads hheadsB fun c hc =>
    hplanted c (by rw [← hruns]; simp [hc])
  refine ⟨pa', pb', hshowsA, hshowsB, ?_⟩
  have houter : (innerOverflow pa'.innerKeys pa'.children ||
      innerOverflow pb'.innerKeys pb'.children) = true ↔ ¬ OuterFit a b := by
    rw [Bool.or_eq_true, hshowsA.overflow_iff, hshowsB.overflow_iff, OuterFit, not_and_or]
  rw [splitInternalPair, ha.children, hb.children, ← List.map_append, threeWayRuns_map]
  dsimp only
  rw [bind_ok hrebuildA, bind_ok hrebuildB]
  by_cases hfits : OuterFit a b
  · rw [if_neg fun hover => houter.mp hover hfits, if_pos hfits]
  · rw [if_pos (houter.mpr hfits), if_neg hfits]
    rfl

theorem splitInternalPair_spec {r : NodeRecord LeafEntry} {pa pb q : ParsedPage}
    {splitParent : ParsedPage → IndexM NodeMap Unit}
    (hp : Pending ty (up.plug (node pid ks (left ++ [a, b] ++ right))) r s)
    (hr : ∃ x ∈ [a, b], r = x.rootRecord)
    (ha : Heads pa a.rootId (a.children.map rootId)) (hb : Heads pb b.rootId (b.children.map rootId))
    (hq : Heads q pid ((left ++ [a, b] ++ right).map rootId))
    (hmany : 3 ≤ (a.children ++ b.children).length) (hsplit : SplitsOn ty up pid splitParent) :
    ReturnsIff ((∀ y ∈ dealtNodes s.pager.count a b, Fits y) ∧
        Settles (s.pager.count + 1) up (above pid (left ++ dealtNodes s.pager.count a b ++ right)))
      (Holds ty (up.plug (node pid ks (left ++ [a, b] ++ right))) s.size)
      (splitInternalPair splitParent pa pb q left.length s) := by
  obtain ⟨pa', pb', hshowsA, hshowsB, hrun⟩ := splitInternalPair_outer splitParent q left.length
    hp hr ha hb
  have hchildren : childrenOf [a, b] = a.children ++ b.children := by simp [childrenOf]
  have hruns := threeWayRuns_append (a.children ++ b.children)
  obtain ⟨hfirst, hsecond, hthird⟩ := threeWayRuns_ne_nil hmany
  rw [hrun]
  by_cases hfits : OuterFit a b
  swap
  · rw [if_neg hfits]
    exact fun hall => hfits ⟨hall.1 _ (by simp [dealtNodes]), hall.1 _ (by simp [dealtNodes])⟩
  rw [if_pos hfits, bind_ok (allocateNodePage_ok hp.count_pos), dealtNodes]
  obtain ⟨hfitsA, hfitsB⟩ := hfits
  revert hruns hfirst hsecond hthird hshowsA hshowsB hfitsA hfitsB
  generalize threeWayRuns (a.children ++ b.children) = runs
  obtain ⟨first, second, third⟩ := runs
  intro hshowsA hshowsB hruns hfirst hsecond hthird hfitsA hfitsB
  dsimp only at hshowsA hshowsB hruns hfirst hsecond hthird hfitsA hfitsB ⊢
  have hp1 := hp.allocate
  have hheadsM : Heads { pageId := s.pager.count, type := .inner, children := second.map rootId }
      s.pager.count (second.map rootId) := ⟨NodeType.noConfusion, rfl, rfl⟩
  obtain ⟨pm, hrebuildM, hshowsM⟩ := rebuild_heads hheadsM fun c hc =>
    hp1.grandchildren_planted hr c (by rw [hchildren, ← hruns]; simp [hc])
  rw [bind_ok hrebuildM, bind_ok (writePage_shows hshowsA hfitsA)]
  by_cases hfitsM : Fits (above s.pager.count second)
  swap
  · obtain ⟨e, hthrow⟩ := writePage_shows_overflows hshowsM ((Bool.not_eq_false _).mp hfitsM)
    rw [bind_error hthrow]
    exact fun hall => hfitsM (hall.1 _ (by simp))
  rw [bind_ok (writePage_shows hshowsM hfitsM), bind_ok (writePage_shows hshowsB hfitsB)]
  have hfresh : s.pager.count ∉ (up.plug (node pid ks (left ++ [a, b] ++ right))).ids :=
    fun hmem => (hp.id_lt _ hmem).false
  have hdealt : childrenOf [above a.rootId first, above s.pager.count second, above b.rootId third] =
      childrenOf [a, b] := by simp [childrenOf, hruns]
  have hnodes : ∀ y ∈ [above a.rootId first, above s.pager.count second, above b.rootId third],
      y.keys = minima y.children ∧ y.children ≠ [] ∧ Fits y := by
    simp only [List.forall_mem_cons]
    exact ⟨⟨rfl, hfirst, hfitsA⟩, ⟨rfl, hsecond, hfitsM⟩, ⟨rfl, hthird, hfitsB⟩, by simp⟩
  have hp2 := hp1.rebuild_nodes [a, b] _ hr hdealt (List.cons_ne_nil _ _) hnodes
    {s.pager.count}
    (ids_dealt a.rootId b.rootId s.pager.count)
    (Multiset.nodup_singleton _)
    (fun i hi => by
      rw [Multiset.mem_singleton.mp hi]
      exact ⟨hp.count_pos, hfresh⟩)
    fun x => Iff.rfl
  have hheadsQ : Heads { q with children := q.children.insertIdx (left.length + 1) s.pager.count } pid
      ((left ++ [above a.rootId first, above s.pager.count second, above b.rootId third] ++ right).map
        rootId) := by
    refine ⟨hq.type, hq.pageId, ?_⟩
    have hinsert := insertIdx_family (left.map rootId) (b.rootId :: right.map rootId) a.rootId
      s.pager.count
    rw [List.length_map] at hinsert
    simpa [hq.children] using hinsert
  refine (place_child hp2 hheadsQ hsplit).imp ?_ ?_
  · rw [count_allocated]
    · exact ⟨fun h => ⟨by simp [hfitsA, hfitsM, hfitsB], h⟩, And.right⟩
    · have hlt := hp.child_lt
      simp only [List.map_cons, List.map_nil, List.forall_mem_cons, rootRecord_id, rootId_node]
      exact ⟨(hlt a (by simp)).le, Nat.le_refl _, (hlt b (by simp)).le, by simp⟩
  · intro s' h
    obtain ⟨T', hlaid, hregroups, hsize⟩ := h
    have hdealtOut := hp2.regroups_nodes ks (List.cons_ne_nil _ _) hdealt fun y hy =>
      ⟨(hnodes y hy).1, (hnodes y hy).2.1⟩
    exact ⟨T', hlaid, hdealtOut.trans hregroups, by rw [hsize, putNodes_size]⟩

/-! ### Inner nodes -/

/-- A node over fewer children takes fewer bytes. -/
theorem Fits.of_sublist {i j : PageId} {cs ds : List (BPlusTree LeafEntry k)}
    (h : Fits (above j ds)) (hsub : cs.Sublist ds) : Fits (above i cs) := by
  rw [Fits, rootRecord_node, overflows_inner, innerOverflow, decide_eq_false_iff_not, not_lt,
    List.length_map] at h ⊢
  refine le_trans ?_ h
  have hkeys : ((minima cs).map fun k => 2 + k.keyLen.toNat).Sublist
      ((minima ds).map fun k => 2 + k.keyLen.toNat) := (hsub.tail.map _).map _
  have hlength := hsub.length_le
  have hsum := hkeys.sum_le_sum fun _ _ => Nat.zero_le _
  rw [innerPayloadBytes, innerPayloadBytes]
  omega

/-- A single child always fits. -/
theorem fits_of_length_le {i : PageId} {cs : List (BPlusTree LeafEntry k)} (h : cs.length ≤ 1) :
    Fits (above i cs) := by
  cases cs with
  | nil => rfl
  | cons c cs =>
    rw [List.length_eq_zero_iff.mp (Nat.le_zero.mp (Nat.le_of_succ_le_succ h))]
    rfl

theorem readPage_allocated {n : PageId} (hlt : n < s.pager.count) (hnone : s.pager.pages n = none) :
    readPage n s = .error (.runtimeError "Corrupt index page") s := by
  show onPager (NodeMap.readPage n) s = _
  have hread : NodeMap.readPage n s.pager = .error (.runtimeError "Corrupt index page") s.pager := by
    rw [NodeMap.readPage, if_pos hlt, hnone]
  simp only [onPager, hread]

/-- Halves are never written: the separator of the right one is looked for in its page,
which is only allocated. -/
theorem splitInternalHalves_throws {id : PageId}
    {cs : List (BPlusTree LeafEntry k)} {p : ParsedPage} {path : List PageId}
    {splitParent : ParsedPage → IndexM NodeMap Unit} (hcount : 0 < s.pager.count)
    (hplanted : ∀ c ∈ cs, Planted ty c s.pager) (hp : Heads p id (cs.map rootId))
    (hne : cs ≠ []) :
    ∃ s', splitInternalHalves splitParent p path s =
      .error (.runtimeError "Corrupt index page") s' := by
  rw [splitInternalHalves, bind_ok (allocateNodePage_ok hcount), hp.children, List.length_map,
    ← List.map_take, ← List.map_drop]
  have hplanted' : ∀ c ∈ cs, Planted ty c (s.pager.put s.pager.count none) := fun c hc =>
    (hplanted c hc).put (fun hmem => by
      obtain ⟨x, hx, heq⟩ := Multiset.mem_map.mp hmem
      exact ((hplanted c hc).written x hx).lt.ne heq) none
  have hleft : Heads { p with children := (cs.take (cs.length / 2)).map rootId } id
      ((cs.take (cs.length / 2)).map rootId) := ⟨hp.type, hp.pageId, rfl⟩
  have hright : Heads { pageId := s.pager.count, type := .inner
                        children := (cs.drop (cs.length / 2)).map rootId } s.pager.count
      ((cs.drop (cs.length / 2)).map rootId) := ⟨NodeType.noConfusion, rfl, rfl⟩
  obtain ⟨p', hrebuild, -⟩ := rebuild_heads (s := { s with pager := s.pager.put s.pager.count none })
    hleft fun c hc => hplanted' c (List.mem_of_mem_take hc)
  obtain ⟨q', hrebuild', hshows⟩ := rebuild_heads
    (s := { s with pager := s.pager.put s.pager.count none }) hright
    fun c hc => hplanted' c (List.mem_of_mem_drop hc)
  have hnonempty : ¬ q'.children.isEmpty = true := by
    rw [hshows.heads.children, List.isEmpty_iff, List.map_eq_nil_iff]
    show ¬ cs.drop (cs.length / 2) = []
    rw [List.drop_eq_nil_iff]
    have hlength : 0 < cs.length := List.length_pos_of_ne_nil hne
    omega
  have hread : readPage s.pager.count { s with pager := s.pager.put s.pager.count none } =
      .error (.runtimeError "Corrupt index page") { s with pager := s.pager.put s.pager.count none } :=
    readPage_allocated ((Nat.lt_succ_self _).trans_le (le_max_right _ _))
      (NodeMap.put_pages_self _ _ _)
  have hmin : subtreeMinEntry s.pager.count { s with pager := s.pager.put s.pager.count none } =
      .error (.runtimeError "Corrupt index page") { s with pager := s.pager.put s.pager.count none } :=
    (bind_ok descentFuel_apply).trans (bind_error hread)
  rw [bind_ok hrebuild, bind_ok hrebuild', if_neg hnonempty, hshows.heads.pageId]
  exact ⟨_, bind_error hmin⟩

section Redistributions
variable {up : Ctx LeafEntry H (k + 2)} {pid id : PageId} {ks : List LeafEntry}
  {left right : List (BPlusTree LeafEntry (k + 1))} {cs : List (BPlusTree LeafEntry k)}
  {p q : ParsedPage} {parentPath : List PageId}

/-- The node only grows: it does not fit with one child more. -/
theorem tryRedistributeInternalWithRight_false
    (hp : PendingAt ty (Ctx.frame pid ks left right up) (above id cs) s)
    (hpage : Shows p (above id cs).rootRecord)
    (hparent : Heads q pid ((left ++ above id cs :: right).map rootId)) (hover : ¬ Fits (above id cs)) :
    tryRedistributeInternalWithRight p q left.length parentPath s = .ok false s := by
  rw [tryRedistributeInternalWithRight]
  cases right with
  | nil =>
    rw [if_pos (by simp [hparent.children])]
    rfl
  | cons d rest =>
    have hread := hp.read_sibling (rootRecord_mem _) (.inr (List.mem_cons_self (a := d)))
    rw [← right_sibling left rest (above id cs) d, ← hparent.children] at hread
    rw [if_neg (by simp [hparent.children]), bind_ok hread, if_neg (shows_pageOf d.rootRecord).heads.type]
    have hchildren : (pageOf d.rootRecord).children = d.children.map rootId := rfl
    rw [hchildren]
    cases hds : d.children with
    | nil => rfl
    | cons moved others =>
      have hfamily : Pending ty (up.plug (node pid ks (left ++ [above id cs, d] ++ rest)))
          (above id cs).rootRecord s := by simpa [PendingAt, Ctx.plug] using hp
      have hplanted := hfamily.grandchildren_planted ⟨_, List.mem_cons_self, rfl⟩
      simp only [childrenOf, List.flatMap_cons, List.flatMap_nil, List.append_nil, node_children, hds,
        List.forall_mem_append, List.forall_mem_cons] at hplanted
      obtain ⟨hplantedX, hplantedM, hplantedD⟩ := hplanted
      have hheads : Heads { p with children := p.children ++ [moved.rootId] } id
          ((cs ++ [moved]).map rootId) :=
        ⟨hpage.heads.type, hpage.pageId, by
          rw [hpage.heads.children, List.map_append]
          rfl⟩
      have hheadsD : Heads { pageOf d.rootRecord with children := others.map rootId } d.rootId
          (others.map rootId) := ⟨NodeType.noConfusion, rfl, rfl⟩
      obtain ⟨p', hrebuild, hshows⟩ := rebuild_heads hheads (by
        simpa [or_imp, forall_and] using ⟨hplantedX, hplantedM⟩)
      obtain ⟨d', hrebuildD, -⟩ := rebuild_heads hheadsD hplantedD
      have hstill : ¬ Fits (above id (cs ++ [moved])) := fun h =>
        hover (h.of_sublist (List.sublist_append_left _ _))
      simp only [List.map_cons]
      by_cases hnil : (others.map rootId).isEmpty = true
      · rw [if_pos hnil]
        rfl
      · rw [if_neg hnil, bind_ok hrebuild, bind_ok hrebuildD, if_pos]
        · rfl
        · rw [Bool.or_eq_true]
          exact .inl (hshows.overflow_iff.mpr hstill)

/-- The node only grows: it does not fit with one child more. -/
theorem tryRedistributeInternalWithLeft_false
    (hp : PendingAt ty (Ctx.frame pid ks left right up) (above id cs) s)
    (hpage : Shows p (above id cs).rootRecord)
    (hparent : Heads q pid ((left ++ above id cs :: right).map rootId)) (hover : ¬ Fits (above id cs)) :
    tryRedistributeInternalWithLeft p q left.length parentPath s = .ok false s := by
  rw [tryRedistributeInternalWithLeft]
  rcases List.eq_nil_or_concat left with rfl | ⟨init, d, hleft⟩
  · rfl
  · rw [List.concat_eq_append] at hleft
    subst hleft
    have hread := hp.read_sibling (rootRecord_mem _) (.inl (List.mem_append_right init (List.mem_singleton_self d)))
    rw [← left_sibling init right (above id cs) d, ← hparent.children] at hread
    rw [if_neg (by simp), bind_ok hread, if_neg (shows_pageOf d.rootRecord).heads.type]
    have hchildren : (pageOf d.rootRecord).children = d.children.map rootId := rfl
    rw [hchildren]
    rcases List.eq_nil_or_concat d.children with hds | ⟨others, moved, hds⟩
    · rw [hds]
      rfl
    rw [List.concat_eq_append] at hds
    have hfamily : Pending ty (up.plug (node pid ks (init ++ [d, above id cs] ++ right)))
        (above id cs).rootRecord s := by simpa [PendingAt, Ctx.plug] using hp
    have hplanted := hfamily.grandchildren_planted
      ⟨_, List.mem_cons_of_mem _ List.mem_cons_self, rfl⟩
    simp only [childrenOf, List.flatMap_cons, List.flatMap_nil, List.append_nil, node_children, hds,
      List.forall_mem_append, List.forall_mem_cons] at hplanted
    obtain ⟨⟨hplantedD, hplantedM, -⟩, hplantedX⟩ := hplanted
    have hheads : Heads { p with children := moved.rootId :: p.children } id
        ((moved :: cs).map rootId) :=
      ⟨hpage.heads.type, hpage.pageId, by
        rw [hpage.heads.children]
        rfl⟩
    have hheadsD : Heads { pageOf d.rootRecord with children := others.map rootId } d.rootId
        (others.map rootId) := ⟨NodeType.noConfusion, rfl, rfl⟩
    obtain ⟨p', hrebuild, hshows⟩ := rebuild_heads hheads (List.forall_mem_cons.mpr ⟨hplantedM, hplantedX⟩)
    obtain ⟨d', hrebuildD, -⟩ := rebuild_heads hheadsD hplantedD
    have hstill : ¬ Fits (above id (moved :: cs)) := fun h =>
      hover (h.of_sublist (List.sublist_cons_self _ _))
    rw [hds, List.map_append, List.map_cons, List.map_nil, List.getLast?_concat, List.dropLast_concat]
    dsimp only
    split
    · rfl
    · rw [bind_ok hrebuild, bind_ok hrebuildD, if_pos]
      · rfl
      · rw [Bool.or_eq_true]
        exact .inl (hshows.overflow_iff.mpr hstill)

end Redistributions

section SplitInternal
variable {up : Ctx LeafEntry H (k + 1)} {pid : PageId} {ks : List LeafEntry}
  {left right : List (BPlusTree LeafEntry k)} {x d : BPlusTree LeafEntry k} {n : PageId}

theorem settles_right (hx : ¬ Fits x) : Settles n (.frame pid ks left (d :: right) up) x ↔
    (∀ y ∈ dealt n x d, Fits y) ∧ Settles (n + 1) up (above pid (left ++ dealt n x d ++ right)) := by
  rw [Settles]
  exact or_iff_right hx

theorem settles_left (hx : ¬ Fits x) : Settles n (.frame pid ks (left ++ [d]) [] up) x ↔
    (∀ y ∈ dealt n d x, Fits y) ∧ Settles (n + 1) up (above pid (left ++ dealt n d x ++ [])) := by
  conv_lhs => unfold Settles
  rw [List.getLast?_concat, List.dropLast_concat]
  exact or_iff_right hx

theorem not_settles_alone (hx : ¬ Fits x) : ¬ Settles n (.frame pid ks [] [] up) x := by
  unfold Settles
  exact fun h => h.elim hx fun h => h

end SplitInternal

/-- An overflowing node has children enough for three nodes. -/
theorem length_of_not_fits {id : PageId} {cs : List (BPlusTree LeafEntry k)}
    (h : ¬ Fits (above id cs)) : 2 ≤ cs.length := by
  by_contra hshort
  exact h (fits_of_length_le (by omega))

section Relieve
variable {up : Ctx LeafEntry H (k + 2)} {pid id : PageId} {ks : List LeafEntry}
  {left right : List (BPlusTree LeafEntry (k + 1))} {d : BPlusTree LeafEntry (k + 1)}
  {cs : List (BPlusTree LeafEntry k)} {p : ParsedPage}

/-- An inner node that overflows is split with the sibling on its right, -/
theorem splitInternal_right
    (hp : PendingAt ty (.frame pid ks left (d :: right) up) (above id cs) s)
    (hshows : Shows p (above id cs).rootRecord) (hover : ¬ Fits (above id cs)) :
    splitInternal (id :: (Ctx.frame pid ks left (d :: right) up).path) p s =
      splitInternalPair (splitInternal (pid :: up.path)) p (pageOf d.rootRecord)
        (pageOf (.inner pid ks ((left ++ above id cs :: d :: right).map rootId))) left.length s := by
  have hparent := heads_parent pid ks (left ++ above id cs :: d :: right)
  have hd := hp.read_sibling (rootRecord_mem _) (.inr (List.mem_cons_self (a := d)))
  rw [← right_sibling left right (above id cs) d, ← hparent.children] at hd
  rw [Ctx.path, splitInternal, bind_ok (hp.read_parent (rootRecord_mem _)), if_neg hparent.type,
    hp.parent_index hshows]
  dsimp only
  rw [bind_ok (tryRedistributeInternalWithRight_false hp hshows hparent hover),
    if_neg Bool.false_ne_true, bind_ok (tryRedistributeInternalWithLeft_false hp hshows hparent hover),
    if_neg Bool.false_ne_true, if_pos (by rw [hparent.children]; simp), bind_ok hd,
    if_neg (shows_pageOf d.rootRecord).heads.type]

/-- or, without one there, with the sibling on its left, -/
theorem splitInternal_left
    (hp : PendingAt ty (.frame pid ks (left ++ [d]) [] up) (above id cs) s)
    (hshows : Shows p (above id cs).rootRecord) (hover : ¬ Fits (above id cs)) :
    splitInternal (id :: (Ctx.frame pid ks (left ++ [d]) [] up).path) p s =
      splitInternalPair (splitInternal (pid :: up.path)) (pageOf d.rootRecord) p
        (pageOf (.inner pid ks ((left ++ [d] ++ [above id cs]).map rootId))) left.length s := by
  have hparent := heads_parent pid ks (left ++ [d] ++ [above id cs])
  have hd := hp.read_sibling (rootRecord_mem _)
    (.inl (List.mem_append_right left (List.mem_singleton_self d)))
  rw [← left_sibling left [] (above id cs) d, ← hparent.children] at hd
  rw [Ctx.path, splitInternal, bind_ok (hp.read_parent (rootRecord_mem _)), if_neg hparent.type,
    hp.parent_index hshows]
  dsimp only
  rw [bind_ok (tryRedistributeInternalWithRight_false hp hshows hparent hover),
    if_neg Bool.false_ne_true, bind_ok (tryRedistributeInternalWithLeft_false hp hshows hparent hover),
    if_neg Bool.false_ne_true, if_neg (by rw [hparent.children]; simp), if_pos (by simp), bind_ok hd,
    if_neg (shows_pageOf d.rootRecord).heads.type, List.length_append, List.length_singleton,
    Nat.add_sub_cancel]

/-- or, alone below its parent, into halves. -/
theorem splitInternal_alone (hp : PendingAt ty (.frame pid ks [] [] up) (above id cs) s)
    (hshows : Shows p (above id cs).rootRecord) (hover : ¬ Fits (above id cs)) :
    splitInternal (id :: (Ctx.frame pid ks [] [] up).path) p s =
      splitInternalHalves (splitInternal (pid :: up.path)) p (id :: pid :: up.path) s := by
  have hparent := heads_parent pid ks ([] ++ [above id cs])
  rw [Ctx.path, splitInternal, bind_ok (hp.read_parent (rootRecord_mem _)), if_neg hparent.type,
    hp.parent_index hshows]
  dsimp only
  rw [bind_ok (tryRedistributeInternalWithRight_false hp hshows hparent hover),
    if_neg Bool.false_ne_true, bind_ok (tryRedistributeInternalWithLeft_false hp hshows hparent hover),
    if_neg Bool.false_ne_true, if_neg (by rw [hparent.children]; simp), if_neg (by simp)]

end Relieve

theorem splitInternal_spec : ∀ {H k : Nat} (ctx : Ctx LeafEntry H (k + 1)) (id : PageId),
    SplitsOn ty ctx id (splitInternal (id :: ctx.path))
  | _, k, .top, id => by
    intro cs s p hp hshows hover
    have hne : cs ≠ [] := fun hnil => hover (fits_of_length_le (by simp [hnil]))
    obtain ⟨s', hthrow⟩ : ∃ s', splitInternalHalves (fun _ => return) p [id] s =
        .error (.runtimeError "Corrupt index page") s' :=
      splitInternalHalves_throws hp.count_pos hp.children_planted hshows.heads hne
    rw [Ctx.path, splitInternal, hthrow]
    · exact fun h => hover (by rwa [Settles] at h)
    · intro _ _ _ h
      cases h
  | _, k, .frame pid ks left right up, id => by
    intro cs s p hp hshows hover
    have hne : cs ≠ [] := fun hnil => hover (fits_of_length_le (by simp [hnil]))
    have hjointed := hp.jointed
    rw [Ctx.plug] at hjointed
    have hsiblings := (jointed_node.mp (up.jointed_hole hjointed)).2
    have hmany : ∀ d ∈ left ++ above id cs :: right, 3 ≤ cs.length + d.children.length := by
      intro d hd
      have htwo := length_of_not_fits hover
      have hone := List.length_pos_of_ne_nil (hsiblings d hd).branching.1
      omega
    cases right with
    | cons d rest =>
      rw [splitInternal_right hp hshows hover, settles_right hover, Ctx.plug]
      have hfamily : left ++ above id cs :: d :: rest = left ++ [above id cs, d] ++ rest := by simp
      have hparent := heads_parent pid ks (left ++ above id cs :: d :: rest)
      rw [PendingAt, Ctx.plug, hfamily] at hp
      rw [hfamily] at hparent ⊢
      exact splitInternalPair_spec hp ⟨_, List.mem_cons_self, rfl⟩ hshows.heads
        (shows_pageOf d.rootRecord).heads hparent
        (by simpa using hmany d (by simp)) (splitInternal_spec up pid)
    | nil =>
      rcases List.eq_nil_or_concat left with rfl | ⟨init, d, hleft⟩
      · obtain ⟨s', hthrow⟩ : ∃ s', splitInternalHalves (splitInternal (pid :: up.path)) p
            (id :: pid :: up.path) s = .error (.runtimeError "Corrupt index page") s' :=
          splitInternalHalves_throws hp.count_pos hp.children_planted hshows.heads hne
        rw [splitInternal_alone hp hshows hover, hthrow]
        exact not_settles_alone hover
      · rw [List.concat_eq_append] at hleft
        subst hleft
        rw [splitInternal_left hp hshows hover, settles_left hover, Ctx.plug]
        have hfamily : init ++ [d] ++ [above id cs] = init ++ [d, above id cs] ++ [] := by simp
        have hparent := heads_parent pid ks (init ++ [d] ++ [above id cs])
        rw [PendingAt, Ctx.plug, hfamily] at hp
        rw [hfamily] at hparent ⊢
        exact splitInternalPair_spec hp ⟨_, List.mem_cons_of_mem _ List.mem_cons_self, rfl⟩
          (shows_pageOf d.rootRecord).heads hshows.heads hparent
          (by simpa [Nat.add_comm] using hmany d (by simp)) (splitInternal_spec up pid)

end CwDb.Storage.DiskBspIndex
