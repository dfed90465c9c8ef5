import CwDb.Storage.Index.Splitting

/-! How a leaf that overflows is relieved.

It gives its last entry to the sibling on its right, if both then fit; otherwise its
entries and those of a sibling are sorted and dealt out over three leaves, or, if it has
no sibling, over two. `splitLeaves` lists the leaves then; the inner nodes above are
those of `Splitting`. -/
namespace CwDb.Storage.DiskBspIndex
open Foundation BPlusTree

variable {ty : DataType} {H k : Nat} {s : DiskBspIndex NodeMap}

/-! ### A leaf gives its last entry away -/

section GiveRight
variable {up : Ctx LeafEntry H 1} {pid : Nat} {ks : List LeafEntry}
  {left right : List (BPlusTree LeafEntry 0)} {a b : Leaf LeafEntry} {p q : ParsedPage}

/-- What is left of a leaf that gave its last entry to the right. -/
def givenRight (a : Leaf LeafEntry) : Leaf LeafEntry := { a with entries := a.entries.dropLast }

/-- A leaf that got the last entry of the one on its left. -/
def gotLeft (a b : Leaf LeafEntry) : Leaf LeafEntry :=
  { b with entries := a.entries.getLast?.toList ++ b.entries }

/-- A sibling on the right has room for the leaf's last entry, and the leaf fits without it. -/
def RoomRight (a : Leaf LeafEntry) (right : List (BPlusTree LeafEntry 0)) : Prop :=
  ∃ b ∈ right.head?, leafOverflow (givenRight a).entries = false ∧
    leafOverflow (gotLeft a b).entries = false

theorem tryGiveToRightLeaf_false
    (hp : Pending ty ((Ctx.frame pid ks left right up).plug (leaf a)) (.leaf a) s)
    (hpage : Shows p (.leaf a)) (hparent : q.children = (left ++ leaf a :: right).map rootId)
    (hroom : ¬ RoomRight a right) : tryGiveToRightLeaf p q left.length s = .ok false s := by
  rw [tryGiveToRightLeaf]
  cases right with
  | nil =>
    rw [if_pos (by simp [hparent])]
    rfl
  | cons d rest =>
    have hread := hp.read_sibling (Multiset.mem_singleton_self _) (.inr (List.mem_cons_self (a := d)))
    rw [← right_sibling left rest (leaf a) d, ← hparent] at hread
    rw [if_neg (by simp [hparent])]
    refine (bind_ok hread).trans ?_
    rw [if_neg (by exact fun h => h rfl), hpage.leaf.2.1]
    cases hlast : a.entries.getLast? with
    | none => rfl
    | some moved =>
      dsimp only
      split
      · rfl
      · rw [if_pos]
        · rfl
        · rw [Bool.or_eq_true]
          by_contra hneither
          rw [not_or, Bool.not_eq_true, Bool.not_eq_true] at hneither
          refine hroom ⟨d, rfl, hneither.2, ?_⟩
          show leafOverflow (a.entries.getLast?.toList ++ Leaf.entries d) = false
          rw [hlast]
          exact hneither.1

/-- The two leaves after the entry was given. -/
def giveRight (a b : Leaf LeafEntry) : List (Leaf LeafEntry) := [givenRight a, gotLeft a b]

theorem giveRight_entries (a b : Leaf LeafEntry) :
    (giveRight a b).flatMap Leaf.entries = [a, b].flatMap Leaf.entries := by
  have hmoved : a.entries.dropLast ++ a.entries.getLast?.toList = a.entries := by
    cases hlast : a.entries.getLast? with
    | none => simp [List.getLast?_eq_none_iff.mp hlast]
    | some e => exact List.dropLast_append_getLast? e hlast
  simp only [giveRight, List.flatMap_cons, List.flatMap_nil, List.append_nil]
  rw [givenRight, gotLeft, ← List.append_assoc, hmoved]

theorem giveRight_relinks (a b : Leaf LeafEntry) : Relinks [a, b] (giveRight a b) :=
  relinks_of_eq rfl rfl

theorem giveRight_pending
    (hp : PendingAt ty (Ctx.frame pid ks left (leaf b :: right) up) (leaf a) s)
    (hrest : (givenRight a).entries ≠ []) (ha : leafOverflow (givenRight a).entries = false)
    (hb : leafOverflow (gotLeft a b).entries = false) :
    PendingAt ty up (above pid (left ++ leavesAt (giveRight a b) ++ right))
      (putNodes s ((giveRight a b).map .leaf)) := by
  rw [PendingAt, Ctx.plug] at hp
  have hne : (gotLeft a b).entries ≠ [] := by
    show a.entries.getLast?.toList ++ b.entries ≠ []
    cases hlast : a.entries.getLast? with
    | none =>
      rw [givenRight, List.getLast?_eq_none_iff.mp hlast] at hrest
      exact absurd rfl hrest
    | some e => exact List.cons_ne_nil _ _
  refine Pending.rebuild_leaves [a, b] (giveRight a b) (by simpa [leavesAt] using hp)
    ⟨a, List.mem_cons_self, rfl⟩ (List.Perm.of_eq (giveRight_entries a b)) (giveRight_relinks a b)
    (List.cons_ne_nil _ _) ?_ 0 ?_ Multiset.nodup_zero
    (fun i hi => absurd hi (Multiset.notMem_zero i)) fun x => Iff.rfl
  · intro m hm
    rcases List.mem_cons.mp hm with rfl | hm
    · exact ⟨hrest, ha⟩
    · rw [List.mem_singleton.mp hm]
      exact ⟨hne, hb⟩
  · rw [add_zero]
    exact le_of_eq rfl

theorem tryGiveToRightLeaf_true
    (hp : PendingAt ty (Ctx.frame pid ks left (leaf b :: right) up) (leaf a) s)
    (hpage : Shows p (.leaf a))
    (hparent : Heads q pid ((left ++ leaf a :: leaf b :: right).map rootId))
    (hrest : (givenRight a).entries ≠ []) (ha : leafOverflow (givenRight a).entries = false)
    (hb : leafOverflow (gotLeft a b).entries = false) :
    ∃ q', Shows q' (above pid (left ++ leavesAt (giveRight a b) ++ right)).rootRecord ∧
      tryGiveToRightLeaf p q left.length s =
        (writePage q' >>= fun _ => return true) (putNodes s ((giveRight a b).map .leaf)) := by
  obtain ⟨q', hrebuild, hshows⟩ := (giveRight_pending hp hrest ha hb).refresh (by
    simpa [leavesAt, giveRight, givenRight, gotLeft] using hparent)
  refine ⟨q', hshows, ?_⟩
  have hread := hp.read_sibling (Multiset.mem_singleton_self _)
    (.inr (List.mem_cons_self (a := leaf b)))
  rw [← right_sibling left right (leaf a) (leaf b), ← hparent.children] at hread
  obtain ⟨-, hentries, hnext⟩ := hpage.leaf
  rw [tryGiveToRightLeaf, if_neg (by simp [hparent.children])]
  refine (bind_ok hread).trans ?_
  rw [if_neg (by exact fun h => h rfl), hentries]
  cases hlast : a.entries.getLast? with
  | none =>
    rw [givenRight, List.getLast?_eq_none_iff.mp hlast] at hrest
    exact absurd rfl hrest
  | some moved =>
    have hgot : moved :: b.entries = (gotLeft a b).entries := by rw [gotLeft, hlast]; rfl
    dsimp only
    have hsome : ¬ (givenRight a).entries.isEmpty = true := by simpa using hrest
    have hfits : ¬ (leafOverflow (moved :: b.entries) ||
        leafOverflow (givenRight a).entries) = true := by
      rw [hgot, ha, hb]
      decide
    refine (congrFun (if_neg hsome) s).trans ?_
    refine (congrFun (if_neg hfits) s).trans ?_
    refine (bind_ok (writePage_shows (r := .leaf (givenRight a)) ?_ ha)).trans ?_
    · exact shows_leaf hpage.leaf.1 hpage.pageId rfl hnext
    refine (bind_ok (writePage_shows (r := .leaf (gotLeft a b)) ?_ hb)).trans ?_
    · exact shows_leaf rfl rfl hgot rfl
    exact bind_ok hrebuild

end GiveRight
/-! ### Two leaves dealt out over three -/

theorem sortInsert_encodes {e : LeafEntry} {es : List LeafEntry} (he : e.Encodes ty)
    (hes : ∀ x ∈ es, x.Encodes ty) :
    sortInsert e es = .ok (es.orderedInsert (fun a b => a.value ≤ b.value) e) := by
  induction es with
  | nil => rfl
  | cons x xs ih =>
    have hx := hes x List.mem_cons_self
    rw [sortInsert, compareEntries_encodes hx he, except_ok_bind, List.orderedInsert_cons]
    have hsign : (x.value.compare e.value).1 < 0 ↔ ¬ e.value ≤ x.value := by
      rw [Value.compare_neg_iff hx.hasType he.hasType, not_le]
    by_cases hle : e.value ≤ x.value
    · rw [if_neg fun h => hsign.mp h hle, if_pos hle]
      rfl
    · rw [if_pos (hsign.mpr hle), if_neg hle, ih fun y hy => hes y (List.mem_cons_of_mem _ hy)]
      rfl

/-- Entries that decode are sorted. -/
theorem sortEntries_encodes {es : List LeafEntry} (hes : ∀ e ∈ es, e.Encodes ty) :
    sortEntries es = .ok (sortedRun es) := by
  induction es with
  | nil => rfl
  | cons e es ih =>
    have hrest : ∀ x ∈ es, x.Encodes ty := fun x hx => hes x (List.mem_cons_of_mem _ hx)
    rw [sortEntries, ih hrest, except_ok_bind, sortInsert_encodes (hes e List.mem_cons_self)]
    · rfl
    · intro x hx
      exact hrest x ((List.mem_insertionSort _).mp hx)

theorem sortedRun_perm (es : List LeafEntry) : (sortedRun es).Perm es := List.perm_insertionSort _ es

/-- Ascending entries are in order. -/
theorem sortedRun_ascending {es : List LeafEntry} (hasc : Ascending LeafEntry.value es) :
    sortedRun es = es := List.Pairwise.insertionSort_eq (hasc.imp fun h => h.le)

theorem dealOver_entries (n : PageId) (a b : Leaf LeafEntry) (es : List LeafEntry) :
    (dealOver n a b es).flatMap Leaf.entries = es := by
  have hruns := threeWayRuns_append es
  simpa [dealOver] using hruns

theorem dealOver_relinks (n : PageId) (a b : Leaf LeafEntry) (es : List LeafEntry) :
    Relinks [a, b] (dealOver n a b es) := fun _ _ h => ⟨h.1, rfl, rfl, h.2.2⟩

section Deal
variable {up : Ctx LeafEntry H 1} {pid : PageId} {ks : List LeafEntry}
  {left right : List (BPlusTree LeafEntry 0)} {a b : Leaf LeafEntry} {r : NodeRecord LeafEntry}
  {es : List LeafEntry} {pa pb q : ParsedPage}

/-- The three leaves are written, in the place of two. -/
theorem dealOver_pending (hp : Pending ty (up.plug (node pid ks (left ++ leavesAt [a, b] ++ right))) r s)
    (hr : ∃ l ∈ [a, b], r = .leaf l) (hperm : es.Perm (a.entries ++ b.entries))
    (hmany : 3 ≤ es.length) (hfits : ∀ y ∈ leavesAt (dealOver s.pager.count a b es), Fits y) :
    PendingAt ty up (above pid (left ++ leavesAt (dealOver s.pager.count a b es) ++ right))
      (putNodes { s with pager := s.pager.put s.pager.count none }
        ((dealOver s.pager.count a b es).map .leaf)) := by
  obtain ⟨hfirst, hsecond, hthird⟩ := threeWayRuns_ne_nil hmany
  have hfresh : s.pager.count ∉ (up.plug (node pid ks (left ++ leavesAt [a, b] ++ right))).ids :=
    fun hmem => (hp.id_lt _ hmem).false
  refine hp.allocate.rebuild_leaves [a, b] _ hr ?_ (dealOver_relinks _ a b es) (List.cons_ne_nil _ _)
    (fun m hm => ⟨?_, hfits _ (List.mem_map_of_mem hm)⟩) {s.pager.count}
    (ids_dealt a.id b.id s.pager.count) (Multiset.nodup_singleton _) (fun i hi => ?_) fun x => Iff.rfl
  · rw [dealOver_entries]
    simpa using hperm
  · rw [dealOver] at hm
    simp only [List.mem_cons, List.not_mem_nil, or_false] at hm
    rcases hm with rfl | rfl | rfl
    · exact hfirst
    · exact hsecond
    · exact hthird
  · rw [Multiset.mem_singleton.mp hi]
    exact ⟨hp.count_pos, hfresh⟩

theorem dealOver_count (hp : Pending ty (up.plug (node pid ks (left ++ leavesAt [a, b] ++ right))) r s) :
    (putNodes { s with pager := s.pager.put s.pager.count none }
      ((dealOver s.pager.count a b es).map .leaf)).pager.count = s.pager.count + 1 := by
  have hlt := hp.child_lt
  refine count_allocated ?_
  simp only [dealOver, List.map_cons, List.map_nil, List.forall_mem_cons]
  exact ⟨(hlt (leaf a) (by simp [leavesAt])).le, Nat.le_refl _,
    (hlt (leaf b) (by simp [leavesAt])).le, by simp⟩

theorem dealOver_heads (n : PageId) (hq : Heads q pid ((left ++ leavesAt [a, b] ++ right).map rootId)) :
    Heads { q with children := q.children.insertIdx (left.length + 1) n } pid
      ((left ++ leavesAt (dealOver n a b es) ++ right).map rootId) := by
  refine ⟨hq.type, hq.pageId, ?_⟩
  have hinsert := insertIdx_family (left.map rootId) (b.id :: right.map rootId) a.id n
  rw [List.length_map] at hinsert
  simpa [hq.children, leavesAt, dealOver] using hinsert

/-- Three pages, if their leaves fit, and what follows. -/
theorem writeDealt {f : PUnit → IndexM NodeMap PUnit} {P : Prop} {Q : DiskBspIndex NodeMap → Prop}
    (n : PageId) (ha : Shows pa (.leaf a)) (hb : Shows pb (.leaf b))
    (hf : (∀ y ∈ leavesAt (dealOver n a b es), Fits y) →
      ReturnsIff P Q (f ⟨⟩ (putNodes s ((dealOver n a b es).map .leaf)))) :
    ReturnsIff ((∀ y ∈ leavesAt (dealOver n a b es), Fits y) ∧ P) Q
      ((writePage { pa with leafEntries := (threeWayRuns es).1, nextLeaf := n } >>= fun _ =>
        writePage { pageId := n, type := .leaf, leafEntries := (threeWayRuns es).2.1
                    nextLeaf := pb.pageId } >>= fun _ =>
        writePage { pb with leafEntries := (threeWayRuns es).2.2 } >>= f) s) := by
  have hall : (∀ y ∈ leavesAt (dealOver n a b es), Fits y) ↔
      Fits (leaf { a with entries := (threeWayRuns es).1, next := n }) ∧
      Fits (leaf { id := n, next := b.id, entries := (threeWayRuns es).2.1 }) ∧
      Fits (leaf { b with entries := (threeWayRuns es).2.2 }) := by
    simp [dealOver, leavesAt]
  rw [hall, and_assoc, and_assoc]
  refine writePage_then (shows_leaf ha.leaf.1 ha.pageId rfl rfl) fun hfits₁ => ?_
  refine writePage_then (shows_leaf rfl rfl rfl hb.pageId) fun hfits₂ => ?_
  refine writePage_then (shows_leaf hb.leaf.1 hb.pageId rfl hb.leaf.2.2) fun hfits₃ => ?_
  exact hf (hall.mpr ⟨hfits₁, hfits₂, hfits₃⟩)

theorem dealOver_reforms (ks : List LeafEntry)
    (hp : PendingAt ty up (above pid (left ++ leavesAt (dealOver s.pager.count a b es) ++ right))
      (putNodes { s with pager := s.pager.put s.pager.count none }
        ((dealOver s.pager.count a b es).map .leaf)))
    (hperm : es.Perm (a.entries ++ b.entries))
    (hsame : Ascending LeafEntry.value (a.entries ++ b.entries) → es = a.entries ++ b.entries) :
    Reforms LeafEntry.value (up.plug (node pid ks (left ++ leavesAt [a, b] ++ right)))
      (up.plug (above pid (left ++ leavesAt (dealOver s.pager.count a b es) ++ right))) := by
  refine hp.reforms_leaves ks (List.cons_ne_nil _ _) ?_ fun hasc => ?_
  · rw [dealOver_entries]
    simpa using hperm
  · rw [dealOver_entries, hsame (by simpa using hasc)]
    simp

theorem splitLeafPair_spec {splitParent : ParsedPage → IndexM NodeMap Unit}
    (hp : Pending ty (up.plug (node pid ks (left ++ leavesAt [a, b] ++ right))) r s)
    (hr : ∃ l ∈ [a, b], r = .leaf l) (ha : Shows pa (.leaf a)) (hb : Shows pb (.leaf b))
    (hq : Heads q pid ((left ++ leavesAt [a, b] ++ right).map rootId))
    (hmany : 3 ≤ (a.entries ++ b.entries).length) (hsplit : SplitsOn ty up pid splitParent) :
    ReturnsIff ((∀ y ∈ leavesAt (dealtLeaves s.pager.count a b), Fits y) ∧
        Settles (s.pager.count + 1) up
          (above pid (left ++ leavesAt (dealtLeaves s.pager.count a b) ++ right)))
      (HoldsLeaves ty (up.plug (node pid ks (left ++ leavesAt [a, b] ++ right)))
        (up.leavesWith left right (dealtLeaves s.pager.count a b)) s.size)
      (splitLeafPair splitParent pa pb q left.length s) := by
  have hencodes : ∀ e ∈ a.entries ++ b.entries, e.Encodes ty := by
    intro e he
    refine hp.encodes_all e ?_
    rw [Ctx.entries_plug, entries_node, entriesOf_append, entriesOf_append, entriesOf_leaves]
    simp only [List.flatMap_cons, List.flatMap_nil, List.append_nil, List.mem_append] at he ⊢
    exact .inl (.inr (.inl (.inr he)))
  have hperm := sortedRun_perm (a.entries ++ b.entries)
  have hruns : 3 ≤ (sortedRun (a.entries ++ b.entries)).length := by rwa [hperm.length_eq]
  obtain ⟨hfirst, hsecond, hthird⟩ := threeWayRuns_ne_nil hruns
  rw [splitLeafPair, ha.leaf.2.1, hb.leaf.2.1, sortEntries_encodes hencodes,
    bind_ok (fromExcept_ok_apply _ _), dealtLeaves]
  dsimp only
  rw [bind_ok (allocateNodePage_ok hp.count_pos), if_neg (by simp [hfirst, hsecond, hthird])]
  refine writeDealt s.pager.count ha hb fun hfits => ?_
  have hp2 := dealOver_pending hp hr hperm hruns hfits
  have hplaced := place_child hp2 (dealOver_heads s.pager.count hq) hsplit
  rw [dealOver_count hp] at hplaced
  refine hplaced.imp Iff.rfl fun s' h => ?_
  have hafter := h.after (dealOver_reforms ks hp2 hperm sortedRun_ascending)
  rwa [Ctx.leaves_plug_leaves, putNodes_size] at hafter

end Deal

/-! ### A leaf without siblings -/

section Halves
variable {l : Leaf LeafEntry} {p : ParsedPage} {splitParent : ParsedPage → IndexM NodeMap Unit}

/-- The halves of a leaf, the right one in a new page. -/
def leftHalf (n : PageId) (l : Leaf LeafEntry) : Leaf LeafEntry :=
  { l with entries := l.entries.take (l.entries.length / 2), next := n }

def rightHalf (n : PageId) (l : Leaf LeafEntry) : Leaf LeafEntry :=
  { id := n, next := l.next, entries := l.entries.drop (l.entries.length / 2) }

def HalvesFit (n : PageId) (l : Leaf LeafEntry) : Prop :=
  Fits (leaf (leftHalf n l)) ∧ Fits (leaf (rightHalf n l))

instance (n : PageId) (l : Leaf LeafEntry) : Decidable (HalvesFit n l) :=
  inferInstanceAs (Decidable (_ ∧ _))

def halves (n : PageId) (l : Leaf LeafEntry) : List (Leaf LeafEntry) := [leftHalf n l, rightHalf n l]

theorem leftHalf_ne_nil {n : PageId} (h : 2 ≤ l.entries.length) : (leftHalf n l).entries ≠ [] := by
  rw [leftHalf, ← List.length_pos_iff, List.length_take]
  omega

theorem rightHalf_ne_nil {n : PageId} (h : 2 ≤ l.entries.length) :
    (rightHalf n l).entries ≠ [] := by
  rw [rightHalf, ← List.length_pos_iff, List.length_drop]
  omega

theorem halves_entries (n : PageId) (l : Leaf LeafEntry) :
    (halves n l).flatMap Leaf.entries = [l].flatMap Leaf.entries := by
  simp [halves, leftHalf, rightHalf]

theorem halves_relinks (n : PageId) (l : Leaf LeafEntry) :
    Relinks [l] (halves n l) := fun _ _ h => ⟨h.1, rfl, h.2⟩

/-- The two nodes are written first. -/
theorem insertIntoParent_throws {a b : NodeRecord LeafEntry} {pa pb : ParsedPage}
    (splitParent : ParsedPage → IndexM NodeMap Unit) (sep : LeafEntry) {id : PageId}
    (above : List PageId) (ha : Shows pa a) (hb : Shows pb b) (hpageId : pa.pageId = id)
    (h : ¬ (NodeMap.overflows (pageOf a) = false ∧ NodeMap.overflows (pageOf b) = false))
    (s : DiskBspIndex NodeMap) :
    ∃ e s', insertIntoParent splitParent pa sep pb (id :: above) s = .error e s' := by
  have hid : ¬ id ≠ pa.pageId := fun h => h hpageId.symm
  by_cases hfitsA : NodeMap.overflows (pageOf a) = false
  · have hfitsB : ¬ NodeMap.overflows (pageOf b) = false := fun hb => h ⟨hfitsA, hb⟩
    obtain ⟨e, hthrow⟩ := writePage_shows_overflows (s := s.putNode a) hb
      ((Bool.not_eq_false _).mp hfitsB)
    refine ⟨e, s.putNode a, ?_⟩
    cases above with
    | nil => rw [insertIntoParent, if_neg hid, bind_ok (writePage_shows ha hfitsA), bind_error hthrow]
    | cons parentId above =>
      rw [insertIntoParent, if_neg hid, bind_ok (writePage_shows ha hfitsA), bind_error hthrow]
  · obtain ⟨e, hthrow⟩ := writePage_shows_overflows (s := s) ha ((Bool.not_eq_false _).mp hfitsA)
    refine ⟨e, s, ?_⟩
    cases above with
    | nil => rw [insertIntoParent, if_neg hid, bind_error hthrow]
    | cons parentId above => rw [insertIntoParent, if_neg hid, bind_error hthrow]

/-- Both halves are written, or a half overflows and it throws. -/
theorem splitLeafHalves_spec {above : List PageId} {Q : DiskBspIndex NodeMap → Prop}
    (hcount : 0 < s.pager.count) (hpage : Shows p (.leaf l)) (hmany : 2 ≤ l.entries.length)
    (hinsert : HalvesFit s.pager.count l → ∀ pa pb : ParsedPage,
      Shows pa (.leaf (leftHalf s.pager.count l)) → Shows pb (.leaf (rightHalf s.pager.count l)) →
      ∃ s', insertIntoParent splitParent pa (leaf (rightHalf s.pager.count l)).minEntry pb
        (l.id :: above) { s with pager := s.pager.put s.pager.count none } = .ok () s' ∧ Q s') :
    ReturnsIff (HalvesFit s.pager.count l) Q (splitLeafHalves splitParent p (l.id :: above) s) := by
  have hshowsL : Shows { p with leafEntries := l.entries.take (l.entries.length / 2)
                                nextLeaf := s.pager.count }
      (.leaf (leftHalf s.pager.count l)) := shows_leaf hpage.leaf.1 hpage.pageId rfl rfl
  have hshowsR : Shows { pageId := s.pager.count, type := .leaf, nextLeaf := l.next
                         leafEntries := l.entries.drop (l.entries.length / 2) }
      (.leaf (rightHalf s.pager.count l)) := shows_leaf rfl rfl rfl rfl
  obtain ⟨e, es, hright⟩ := List.exists_cons_of_ne_nil (rightHalf_ne_nil (n := s.pager.count) hmany)
  have hdrop : l.entries.drop (l.entries.length / 2) = e :: es := hright
  rw [splitLeafHalves, bind_ok (allocateNodePage_ok hcount), hpage.leaf.2.1, hpage.leaf.2.2]
  have hsep : (leaf (rightHalf s.pager.count l)).minEntry = e := by
    rw [minEntry_leaf, hright]
    rfl
  rw [hsep] at hinsert
  simp only [hdrop] at hshowsR ⊢
  by_cases hfits : HalvesFit s.pager.count l
  · obtain ⟨s', hrun, hq⟩ := hinsert hfits _ _ hshowsL hshowsR
    rw [hrun]
    exact ⟨hfits, hq⟩
  · have hid : p.pageId = l.id := hpage.pageId
    obtain ⟨e', s', hthrow⟩ := insertIntoParent_throws splitParent e above hshowsL hshowsR hid hfits
      { s with pager := s.pager.put s.pager.count none }
    rw [hthrow]
    exact hfits

/-- Two children always fit. -/
theorem fits_two {id : PageId} {x y : BPlusTree LeafEntry k}
    (h : y.minEntry.keyLen.toNat ≤ kMaxIndexKeyBytes) : Fits (above id [x, y]) := by
  rw [Fits, rootRecord_node, overflows_inner, innerOverflow, decide_eq_false_iff_not, not_lt]
  have hmax : kMaxIndexKeyBytes = 512 := rfl
  have hpage : kPageSize = 4096 := rfl
  simp only [innerPayloadBytes, minima, List.tail_cons, List.map_cons, List.map_nil, List.sum_cons,
    List.sum_nil, List.length_cons, List.length_nil]
  omega

/-- The only child of its parent. -/
theorem splitLeafHalves_child {up : Ctx LeafEntry H 1} {pid : PageId} {ks : List LeafEntry}
    (hp : PendingAt ty (Ctx.frame pid ks [] [] up) (leaf l) s) (hpage : Shows p (.leaf l))
    (hmany : 2 ≤ l.entries.length) (hsplit : SplitsOn ty up pid splitParent) :
    ReturnsIff (HalvesFit s.pager.count l)
      (HoldsLeaves ty ((Ctx.frame pid ks [] [] up).plug (leaf l))
        (up.leavesWith [] [] (halves s.pager.count l)) s.size)
      (splitLeafHalves splitParent p (l.id :: pid :: up.path) s) := by
  refine splitLeafHalves_spec hp.count_pos hpage hmany fun hfits pa pb ha hb => ?_
  have hp1 := hp.allocate
  have hself : (leaf l).rootRecord ∈ (leaf l).records := rootRecord_mem _
  have hwritten := hp1.parent_written hself
  have hne : pid ≠ l.id := hp.parent_ne hself
  have hlt : pid < s.pager.count := (hp.parent_written hself).lt
  have hfresh : s.pager.count ∉ ((Ctx.frame pid ks [] [] up).plug (leaf l)).ids :=
    fun hmem => (hp.id_lt _ hmem).false
  have hfamily : (Ctx.frame pid ks [] [] up).plug (leaf l) =
      up.plug (node pid ks ([] ++ leavesAt [l] ++ [])) := by
    rw [Ctx.plug]
    rfl
  rw [hfamily] at hp1 hfresh ⊢
  have hp2 := hp1.rebuild_leaves [l] (halves s.pager.count l)
    ⟨l, List.mem_cons_self, rfl⟩ (List.Perm.of_eq (halves_entries _ l)) (halves_relinks _ l) (List.cons_ne_nil _ _)
    (by
      simp only [halves, List.forall_mem_cons]
      exact ⟨⟨leftHalf_ne_nil hmany, hfits.1⟩, ⟨rightHalf_ne_nil hmany, hfits.2⟩, by simp⟩)
    {s.pager.count} (le_of_eq rfl) (Multiset.nodup_singleton _)
    (fun i hi => by
      rw [Multiset.mem_singleton.mp hi]
      exact ⟨hp.count_pos, hfresh⟩)
    fun x => Iff.rfl
  have hapart : ∀ x ∈ [NodeRecord.leaf (leftHalf s.pager.count l),
      .leaf (rightHalf s.pager.count l)], pid ≠ x.id := by
    simp only [List.forall_mem_cons]
    exact ⟨hne, hlt.ne, by simp⟩
  have hread : readPage pid ((({ s with pager := s.pager.put s.pager.count none }).putNode
      (.leaf (leftHalf s.pager.count l))).putNode (.leaf (rightHalf s.pager.count l))) =
        .ok (pageOf (.inner pid ks [l.id])) ((({ s with pager := s.pager.put s.pager.count none }).putNode
      (.leaf (leftHalf s.pager.count l))).putNode (.leaf (rightHalf s.pager.count l))) :=
    readPage_written (written_putNodes_ne hwritten hapart)
  have hparent := (shows_pageOf (.inner pid ks [l.id])).heads
  have hindex : (pageOf (.inner pid ks [l.id])).children.idxOf? pa.pageId = some 0 := by
    rw [ha.pageId]
    exact List.idxOf?_cons.trans (if_pos (beq_self_eq_true _))
  have hheads : Heads (let parent := pageOf (.inner pid ks [l.id])
      { parent with
        innerKeys := parent.innerKeys.insertIdx 0 (leaf (rightHalf s.pager.count l)).minEntry
        children := parent.children.insertIdx 1 pb.pageId
        keyCount := UInt8.ofNat (parent.innerKeys.insertIdx 0
          (leaf (rightHalf s.pager.count l)).minEntry).length }) pid
      (([] ++ leavesAt (halves s.pager.count l) ++ []).map rootId) := by
    refine ⟨NodeType.noConfusion, rfl, ?_⟩
    rw [hb.pageId]
    rfl
  have hplaced := place_child hp2 hheads hsplit
  rw [insertIntoParent, if_neg (fun h => h ha.pageId.symm), bind_ok (writePage_shows ha hfits.1),
    bind_ok (writePage_shows hb hfits.2)]
  rw [bind_ok hread, if_neg hparent.type, hindex]
  have hkey : (leaf (rightHalf s.pager.count l)).minEntry ∈ l.entries := by
    have hmem := minEntry_mem (t := leaf (rightHalf s.pager.count l)) (by
      rw [entries_leaf]
      exact rightHalf_ne_nil hmany)
    rw [entries_leaf] at hmem
    exact List.mem_of_mem_drop hmem
  obtain ⟨u, s', hrun, hholds⟩ := hplaced.ok (.of_fits (fits_two (hp.encodes _ hkey).keyLen_le))
  refine ⟨s', hrun, ?_⟩
  have hafter := hholds.after (hp2.reforms_leaves ks (List.cons_ne_nil _ _)
    (List.Perm.of_eq (halves_entries _ l)) fun _ => halves_entries _ l)
  rwa [Ctx.leaves_plug_leaves, putNodes_size] at hafter

/-- Two leaves in the place of one, and a root over them. -/
theorem laid_two {T : BPlusTree LeafEntry 0} {r : NodeRecord LeafEntry} (hp : Pending ty T r s)
    {a b : Leaf LeafEntry} {m : PageId} (hlinks : Relinks T.leaves [a, b]) (ha : a.entries ≠ [])
    (hb : b.entries ≠ []) (hids : a.id ≠ b.id ∧ a.id ≠ m ∧ b.id ≠ m) {s' : DiskBspIndex NodeMap}
    (hroot : s'.rootPage = m) (hfirst : s'.firstLeafPage = s.firstLeafPage)
    (hwritten : Written ty s'.pager (.leaf a) ∧ Written ty s'.pager (.leaf b) ∧
      Written ty s'.pager (above m (leavesAt [a, b])).rootRecord) :
    Laid ty (above m (leavesAt [a, b])) s' := by
  have hfilled : Filled (above m (leavesAt [a, b])) := by
    rw [filled_node]
    simp only [leavesAt, List.map_cons, List.map_nil, List.forall_mem_cons, Filled, leaves_leaf]
    exact ⟨⟨ha, by simp⟩, ⟨hb, by simp⟩, by simp⟩
  have hne : a.entries ++ b.entries ≠ [] := List.append_ne_nil_of_left_ne_nil ha _
  refine ⟨⟨?_, ?_, fun _ => hfilled, fun hnil => ?_, ?_⟩, hroot, ?_⟩
  · rw [ids_node, idsOf_leaves]
    simp only [Multiset.nodup_cons, Multiset.mem_coe, Multiset.coe_nodup, List.map_cons, List.map_nil,
      List.mem_cons, List.nodup_cons, List.not_mem_nil]
    obtain ⟨hab, ham, hbm⟩ := hids
    exact ⟨by tauto, by tauto, by tauto⟩
  · refine (jointed_above (List.cons_ne_nil _ _)).mpr fun c (hc : c ∈ leavesAt [a, b]) => ?_
    obtain ⟨l, -, rfl⟩ := List.mem_map.mp hc
    trivial
  · rw [entries_node, entriesOf_leaves] at hnil
    simp [ha] at hnil
  · rw [hfirst, leaves_node, leavesOf_leaves]
    exact hlinks _ _ hp.linked
  · intro x hx
    rw [records_node, recordsOf_leaves] at hx
    rcases Multiset.mem_cons.mp hx with rfl | hx
    · exact hwritten.2.2
    · rcases List.mem_cons.mp (Multiset.mem_coe.mp hx) with rfl | hx
      · exact hwritten.1
      · rw [List.mem_singleton.mp hx]
        exact hwritten.2.1

theorem reforms_two {l a b : Leaf LeafEntry} (m : PageId)
    (hentries : [a, b].flatMap Leaf.entries = [l].flatMap Leaf.entries) (ha : a.entries ≠ [])
    (hb : b.entries ≠ []) :
    Reforms LeafEntry.value (leaf l) (above m (leavesAt [a, b])) := by
  have hall : (above m (leavesAt [a, b])).entries = (leaf l).entries := by
    rw [entries_node, entriesOf_leaves, hentries, entries_leaf]
    simp
  refine ⟨List.Perm.of_eq hall, fun hs => ⟨⟨?_, hall ▸ hs.ascending⟩, hall⟩⟩
  have hasc := hs.ascending
  rw [← hall, entries_node] at hasc
  refine ordered_node.mpr ⟨separated_minima (List.cons_ne_nil _ _) hasc ?_, fun c hc => ?_⟩
  · simp only [leavesAt, List.map_cons, List.map_nil, List.forall_mem_cons, entries_leaf]
    exact ⟨ha, hb, by simp⟩
  · obtain ⟨l, -, rfl⟩ := List.mem_map.mp hc
    trivial

/-- The root: it gets a new root over it. -/
theorem splitLeafHalves_root (hp : PendingAt ty .top (leaf l) s) (hpage : Shows p (.leaf l))
    (hmany : 2 ≤ l.entries.length) :
    ReturnsIff (HalvesFit s.pager.count l)
      (fun s' => ∃ T' : BPlusTree LeafEntry 1, Laid ty T' s' ∧ T'.leaves = halves s.pager.count l ∧
        Reforms LeafEntry.value (leaf l) T' ∧ s'.size = s.size)
      (splitLeafHalves splitParent p [l.id] s) := by
  refine splitLeafHalves_spec hp.count_pos hpage hmany fun hfits pa pb ha hb => ?_
  rw [PendingAt, Ctx.plug] at hp
  have hlt : l.id < s.pager.count := hp.lt
  have hkey : (leaf (rightHalf s.pager.count l)).minEntry ∈ l.entries := by
    have hmem := minEntry_mem (t := leaf (rightHalf s.pager.count l)) (by
      rw [entries_leaf]
      exact rightHalf_ne_nil hmany)
    rw [entries_leaf] at hmem
    exact List.mem_of_mem_drop hmem
  have hfitsRoot : Fits (above (s.pager.count + 1) [leaf (leftHalf s.pager.count l),
      leaf (rightHalf s.pager.count l)]) := fits_two (hp.encodes _ hkey).keyLen_le
  have hcount : (putNodes { s with pager := s.pager.put s.pager.count none }
      [.leaf (leftHalf s.pager.count l), .leaf (rightHalf s.pager.count l)]).pager.count =
        s.pager.count + 1 := count_allocated (by
    simp only [List.forall_mem_cons]
    exact ⟨hlt.le, Nat.le_refl _, by simp⟩)
  generalize hs2 : putNodes { s with pager := s.pager.put s.pager.count none }
    [.leaf (leftHalf s.pager.count l), .leaf (rightHalf s.pager.count l)] = s2 at hcount
  have hroot : Shows { pageId := s2.pager.count, type := .inner, keyCount := 1
                       innerKeys := [(leaf (rightHalf s.pager.count l)).minEntry]
                       children := [pa.pageId, pb.pageId] }
      (above s2.pager.count [leaf (leftHalf s.pager.count l),
        leaf (rightHalf s.pager.count l)]).rootRecord :=
    shows_inner NodeType.noConfusion rfl rfl (by
      rw [ha.pageId, hb.pageId]
      rfl)
  have hwrites : insertIntoParent splitParent pa (leaf (rightHalf s.pager.count l)).minEntry pb [l.id]
      { s with pager := s.pager.put s.pager.count none } =
        .ok () { (putNode { s2 with pager := s2.pager.put s2.pager.count none }
          (above s2.pager.count [leaf (leftHalf s.pager.count l),
            leaf (rightHalf s.pager.count l)]).rootRecord) with rootPage := s2.pager.count } := by
    rw [insertIntoParent, if_neg (fun h => h ha.pageId.symm), bind_ok (writePage_shows ha hfits.1),
      bind_ok (writePage_shows hb hfits.2)]
    have hs2' : (({ s with pager := s.pager.put s.pager.count none } : DiskBspIndex NodeMap).putNode
        (.leaf (leftHalf s.pager.count l))).putNode (.leaf (rightHalf s.pager.count l)) = s2 := hs2
    rw [hs2', bind_ok (allocateNodePage_ok (by rw [hcount]; exact Nat.succ_pos _)),
      bind_ok (writePage_shows hroot hfitsRoot)]
    rfl
  refine ⟨_, hwrites, above s2.pager.count (leavesAt (halves s.pager.count l)), ?_, ?_, ?_, ?_⟩
  · have hl : l.id ≠ s2.pager.count := by
      rw [hcount]
      exact (hlt.trans (Nat.lt_succ_self _)).ne
    have hn : s.pager.count ≠ s2.pager.count := by
      rw [hcount]
      exact (Nat.lt_succ_self _).ne
    have hencodes : ∀ e ∈ l.entries, e.Encodes ty := hp.encodes
    have hpos : 0 < l.id := hp.pos
    have hwrittenL : Written ty s2.pager (.leaf (leftHalf s.pager.count l)) := by
      rw [← hs2]
      exact (written_put (r := .leaf (leftHalf s.pager.count l)) hpos hfits.1 fun e he =>
        hencodes e (List.mem_of_mem_take he)).put hlt.ne _
    have hwrittenR : Written ty s2.pager (.leaf (rightHalf s.pager.count l)) := by
      rw [← hs2]
      exact written_put hp.count_pos hfits.2 fun e he => hencodes e (List.mem_of_mem_drop he)
    refine laid_two hp (halves_relinks _ l) (leftHalf_ne_nil hmany) (rightHalf_ne_nil hmany)
      ⟨hlt.ne, hl, hn⟩ rfl ?_ ⟨?_, ?_, ?_⟩
    · show s2.firstLeafPage = s.firstLeafPage
      rw [← hs2, putNodes_firstLeafPage]
    · exact (hwrittenL.put hl none).put hl _
    · exact (hwrittenR.put hn none).put hn _
    · refine written_put (hcount.symm ▸ Nat.succ_pos _) hfitsRoot fun e he => ?_
      rw [List.mem_singleton.mp he]
      exact hencodes _ hkey
  · rw [leaves_node, leavesOf_leaves]
  · exact reforms_two _ (halves_entries _ l) (leftHalf_ne_nil hmany) (rightHalf_ne_nil hmany)
  · show s2.size = s.size
    rw [← hs2, putNodes_size]

end Halves

/-! ### Leaves -/

section SplitLeaf
variable {up : Ctx LeafEntry H 1} {pid : PageId} {ks : List LeafEntry}
  {left right : List (BPlusTree LeafEntry 0)} {l : Leaf LeafEntry} {p q : ParsedPage}

theorem leafOverflow_cons {e : LeafEntry} {es : List LeafEntry} (h : leafOverflow es = true) :
    leafOverflow (e :: es) = true := by
  have hbytes : kPageSize < leafPayloadBytes es := of_decide_eq_true h
  refine decide_eq_true (hbytes.trans_le ?_)
  rw [leafPayloadBytes, leafPayloadBytes, List.map_cons, List.sum_cons]
  omega

/-- An overflowing leaf has entries enough for three leaves. -/
theorem leafPayloadBytes_le {es : List LeafEntry} (hes : ∀ e ∈ es, e.Encodes ty) :
    leafPayloadBytes es ≤ 12 + 522 * es.length := by
  have hmax : kMaxIndexKeyBytes = 512 := rfl
  rw [leafPayloadBytes]
  refine Nat.add_le_add_left ?_ 12
  induction es with
  | nil => exact Nat.le_refl _
  | cons e es ih =>
    have he := (hes e List.mem_cons_self).keyLen_le
    have hrest := ih fun x hx => hes x (List.mem_cons_of_mem _ hx)
    rw [List.map_cons, List.sum_cons, List.length_cons]
    omega

theorem length_of_leafOverflow {es : List LeafEntry} (hes : ∀ e ∈ es, e.Encodes ty)
    (h : leafOverflow es = true) : 3 ≤ es.length := by
  have hpage : kPageSize = 4096 := rfl
  have hle := leafPayloadBytes_le hes
  have hbytes : kPageSize < leafPayloadBytes es := of_decide_eq_true h
  omega

/-- The leaf only grows: it does not fit with one entry more. -/
theorem tryGiveToLeftLeaf_false
    (hp : PendingAt ty (Ctx.frame pid ks left right up) (leaf l) s) (hpage : Shows p (.leaf l))
    (hparent : Heads q pid ((left ++ leaf l :: right).map rootId)) (hover : ¬ Fits (leaf l)) :
    tryGiveToLeftLeaf p q left.length s = .ok false s := by
  have hover' : leafOverflow l.entries = true := (Bool.not_eq_false _).mp hover
  rw [tryGiveToLeftLeaf]
  rcases List.eq_nil_or_concat left with rfl | ⟨init, d, hleft⟩
  · rfl
  · rw [List.concat_eq_append] at hleft
    subst hleft
    have hread := hp.read_sibling (rootRecord_mem _)
      (.inl (List.mem_append_right init (List.mem_singleton_self d)))
    rw [← left_sibling init right (leaf l) d, ← hparent.children] at hread
    split
    · rfl
    · rw [bind_ok hread, if_neg (by exact fun h => h rfl), hpage.leaf.2.1]
      cases (pageOf d.rootRecord).leafEntries.getLast? with
      | none => rfl
      | some moved =>
        dsimp only
        split
        · rfl
        · rw [leafOverflow_cons hover', Bool.true_or, if_pos rfl]
          rfl

/-- An overflowing leaf gives its last entry to the right if there is room, is cut into
halves if it has no siblings, and is split with a sibling otherwise. -/
def LeafSettles (n : PageId) : {H : Nat} → Ctx LeafEntry H 0 → Leaf LeafEntry → Prop
  | _, .top, l => HalvesFit n l
  | _, .frame pid ks left [] up, l =>
    if left.isEmpty then HalvesFit n l else Settles n (.frame pid ks left [] up) (leaf l)
  | _, .frame pid ks left (b :: rest) up, l =>
    if Fits (leaf (givenRight l)) ∧ Fits (leaf (gotLeft l b)) then
      Fits (above pid (left ++ leavesAt (giveRight l b) ++ rest))
    else Settles n (.frame pid ks left (b :: rest) up) (leaf l)

/-- The leaves then. -/
def splitLeaves (n : PageId) : {H : Nat} → Ctx LeafEntry H 0 → Leaf LeafEntry → List (Leaf LeafEntry)
  | _, .top, l => halves n l
  | _, .frame _ _ left [] up, l =>
    match left.getLast? with
    | none => up.leavesWith [] [] (halves n l)
    | some d => up.leavesWith left.dropLast [] (dealtLeaves n d l)
  | _, .frame _ _ left (b :: rest) up, l =>
    up.leavesWith left rest (if Fits (leaf (givenRight l)) ∧ Fits (leaf (gotLeft l b)) then
      giveRight l b else dealtLeaves n l b)

/-- The index after the split of a leaf, the tree two levels high at least. -/
def SplitDone (ty : DataType) (n : PageId) (ctx : Ctx LeafEntry H 0) (l : Leaf LeafEntry)
    (size : Nat) (s : DiskBspIndex NodeMap) : Prop :=
  ∃ (h : Nat) (T' : BPlusTree LeafEntry h), h = max H 1 ∧ Laid ty T' s ∧
    T'.leaves = splitLeaves n ctx l ∧ Reforms LeafEntry.value (ctx.plug (leaf l)) T' ∧ s.size = size

theorem HoldsLeaves.splitDone {n : PageId} {ctx : Ctx LeafEntry H 0} {size : Nat} (hH : 0 < H)
    {s : DiskBspIndex NodeMap} (h : HoldsLeaves ty (ctx.plug (leaf l)) (splitLeaves n ctx l) size s) :
    SplitDone ty n ctx l size s := by
  obtain ⟨T', hlaid, hleaves, hreforms, hsize⟩ := h
  exact ⟨H, T', (max_eq_left hH).symm, hlaid, hleaves, hreforms, hsize⟩

theorem not_roomRight_nil : ¬ RoomRight l [] := by
  intro h
  obtain ⟨b, hb, -⟩ := h
  cases hb

theorem not_roomRight_cons {b : BPlusTree LeafEntry 0}
    (hroom : ¬ (Fits (leaf (givenRight l)) ∧ Fits (leaf (gotLeft l b)))) :
    ¬ RoomRight l (b :: right) := by
  intro h
  obtain ⟨b', hb, hboth⟩ := h
  cases hb
  exact hroom hboth

/-- There is room on the right: the last entry goes there, and the parent is written. -/
theorem splitLeaf_gives {b : Leaf LeafEntry}
    (hp : PendingAt ty (.frame pid ks left (leaf b :: right) up) (leaf l) s) (hpage : Shows p (.leaf l))
    (hrest : (givenRight l).entries ≠ [])
    (hroom : Fits (leaf (givenRight l)) ∧ Fits (leaf (gotLeft l b))) :
    ∃ q, Shows q (above pid (left ++ leavesAt (giveRight l b) ++ right)).rootRecord ∧
      splitLeaf p (l.id :: (Ctx.frame pid ks left (leaf b :: right) up).path) s =
        writePage q (putNodes s ((giveRight l b).map .leaf)) := by
  have hparent := heads_parent pid ks (left ++ leaf l :: leaf b :: right)
  obtain ⟨q, hshows, hrun⟩ := tryGiveToRightLeaf_true hp hpage hparent hrest hroom.1 hroom.2
  refine ⟨q, hshows, ?_⟩
  rw [Ctx.path, splitLeaf, bind_ok (hp.read_parent (rootRecord_mem _)), if_neg hparent.type,
    hp.parent_index hpage]
  dsimp only
  cases hwrite : writePage q (putNodes s ((giveRight l b).map .leaf)) with
  | ok u s' =>
    rw [bind_ok (hrun.trans (bind_ok hwrite))]
    rfl
  | error e s' => exact bind_error (hrun.trans (bind_error hwrite))

/-- There is none: the leaf is split with the sibling on its right, -/
theorem splitLeaf_right {b : BPlusTree LeafEntry 0}
    (hp : PendingAt ty (.frame pid ks left (b :: right) up) (leaf l) s) (hpage : Shows p (.leaf l))
    (hover : ¬ Fits (leaf l)) (hroom : ¬ (Fits (leaf (givenRight l)) ∧ Fits (leaf (gotLeft l b)))) :
    splitLeaf p (l.id :: (Ctx.frame pid ks left (b :: right) up).path) s =
      splitLeafPair (splitInternal (pid :: up.path)) p (pageOf b.rootRecord)
        (pageOf (.inner pid ks ((left ++ leaf l :: b :: right).map rootId))) left.length s := by
  have hparent := heads_parent pid ks (left ++ leaf l :: b :: right)
  have hb := hp.read_sibling (rootRecord_mem _) (.inr (List.mem_cons_self (a := b)))
  rw [← right_sibling left right (leaf l) b, ← hparent.children] at hb
  rw [Ctx.path, splitLeaf, bind_ok (hp.read_parent (rootRecord_mem _)), if_neg hparent.type,
    hp.parent_index hpage]
  dsimp only
  rw [bind_ok (tryGiveToRightLeaf_false hp hpage hparent.children (not_roomRight_cons hroom)),
    if_neg Bool.false_ne_true, bind_ok (tryGiveToLeftLeaf_false hp hpage hparent hover),
    if_neg Bool.false_ne_true, if_pos (by rw [hparent.children]; simp), bind_ok hb,
    if_neg (by exact fun h => h rfl)]

/-- or, without one there, with the sibling on its left, -/
theorem splitLeaf_left {d : BPlusTree LeafEntry 0}
    (hp : PendingAt ty (.frame pid ks (left ++ [d]) [] up) (leaf l) s) (hpage : Shows p (.leaf l))
    (hover : ¬ Fits (leaf l)) :
    splitLeaf p (l.id :: (Ctx.frame pid ks (left ++ [d]) [] up).path) s =
      splitLeafPair (splitInternal (pid :: up.path)) (pageOf d.rootRecord) p
        (pageOf (.inner pid ks ((left ++ [d] ++ [leaf l]).map rootId))) left.length s := by
  have hparent := heads_parent pid ks (left ++ [d] ++ [leaf l])
  have hd := hp.read_sibling (rootRecord_mem _)
    (.inl (List.mem_append_right left (List.mem_singleton_self d)))
  rw [← left_sibling left [] (leaf l) d, ← hparent.children] at hd
  rw [Ctx.path, splitLeaf, bind_ok (hp.read_parent (rootRecord_mem _)), if_neg hparent.type,
    hp.parent_index hpage]
  dsimp only
  rw [bind_ok (tryGiveToRightLeaf_false hp hpage hparent.children not_roomRight_nil),
    if_neg Bool.false_ne_true, bind_ok (tryGiveToLeftLeaf_false hp hpage hparent hover),
    if_neg Bool.false_ne_true, if_neg (by rw [hparent.children]; simp), if_pos (by simp), bind_ok hd,
    if_neg (by exact fun h => h rfl), List.length_append, List.length_singleton, Nat.add_sub_cancel]

/-- or, alone below its parent, into halves. -/
theorem splitLeaf_alone (hp : PendingAt ty (.frame pid ks [] [] up) (leaf l) s)
    (hpage : Shows p (.leaf l)) (hover : ¬ Fits (leaf l)) :
    splitLeaf p (l.id :: (Ctx.frame pid ks [] [] up).path) s =
      splitLeafHalves (splitInternal (pid :: up.path)) p (l.id :: pid :: up.path) s := by
  have hparent := heads_parent pid ks ([] ++ [leaf l])
  rw [Ctx.path, splitLeaf, bind_ok (hp.read_parent (rootRecord_mem _)), if_neg hparent.type,
    hp.parent_index hpage]
  dsimp only
  rw [bind_ok (tryGiveToRightLeaf_false hp hpage hparent.children not_roomRight_nil),
    if_neg Bool.false_ne_true, bind_ok (tryGiveToLeftLeaf_false hp hpage hparent hover),
    if_neg Bool.false_ne_true, if_neg (by rw [hparent.children]; simp), if_neg (by simp)]

theorem splitLeaf_spec (ctx : Ctx LeafEntry H 0) (hp : PendingAt ty ctx (leaf l) s)
    (hpage : Shows p (.leaf l)) (hover : ¬ Fits (leaf l)) :
    ReturnsIff (LeafSettles s.pager.count ctx l) (SplitDone ty s.pager.count ctx l s.size)
      (splitLeaf p (l.id :: ctx.path) s) := by
  have hover' : leafOverflow l.entries = true := (Bool.not_eq_false _).mp hover
  have hencodes : ∀ e ∈ l.entries, e.Encodes ty := hp.encodes
  have hlength := length_of_leafOverflow hencodes hover'
  cases ctx with
  | top =>
    rw [Ctx.path]
    refine (splitLeafHalves_root hp hpage (Nat.le_of_succ_le hlength)).imp (by rw [LeafSettles]) ?_
    intro s' h
    obtain ⟨T', hlaid, hleaves, hreforms, hsize⟩ := h
    exact ⟨1, T', rfl, hlaid, hleaves, by rwa [Ctx.plug], hsize⟩
  | frame pid ks left right up =>
    have hH : 0 < H := up.le_height
    cases right with
    | cons b rest =>
      have hfamily : left ++ leaf l :: b :: rest = left ++ leavesAt [l, b] ++ rest := by
        simp [leavesAt]
        rfl
      have hplug : (Ctx.frame pid ks left (b :: rest) up).plug (leaf l) =
          up.plug (node pid ks (left ++ leavesAt [l, b] ++ rest)) := by rw [Ctx.plug, hfamily]
      by_cases hroom : Fits (leaf (givenRight l)) ∧ Fits (leaf (gotLeft l b))
      · have hrest : (givenRight l).entries ≠ [] := by
          rw [givenRight, ← List.length_pos_iff, List.length_dropLast]
          omega
        obtain ⟨q, hshows, hrun⟩ := splitLeaf_gives (b := b) hp hpage hrest hroom
        have hp2 := giveRight_pending hp hrest hroom.1 hroom.2
        refine (congrArg (ReturnsIff _ _) hrun).mpr ?_
        rw [LeafSettles, if_pos hroom]
        by_cases hfits : Fits (above pid (left ++ leavesAt (giveRight l b) ++ rest))
        · rw [writePage_shows hshows hfits]
          have hreforms := hp2.reforms_leaves ks (List.cons_ne_nil _ _)
            (List.Perm.of_eq (giveRight_entries l b)) fun _ => giveRight_entries l b
          refine ⟨hfits, HoldsLeaves.splitDone hH ⟨_, hp2.settle hfits hp2.filled_of_inner, ?_, ?_,
            putNodes_size _⟩⟩
          · rw [Ctx.leaves_plug_leaves, splitLeaves, if_pos hroom]
          · rwa [hplug]
        · obtain ⟨e, hthrow⟩ := writePage_shows_overflows
            (s := putNodes s ((giveRight l b).map .leaf)) hshows ((Bool.not_eq_false _).mp hfits)
          rw [hthrow]
          exact hfits
      · rw [splitLeaf_right hp hpage hover hroom, LeafSettles, if_neg hroom, settles_right hover]
        rw [PendingAt, hplug] at hp
        have hparent := heads_parent pid ks (left ++ leaf l :: b :: rest)
        rw [hfamily] at hparent ⊢
        have hmany : 3 ≤ (l.entries ++ Leaf.entries b).length := by
          rw [List.length_append]
          omega
        refine (splitLeafPair_spec hp ⟨l, List.mem_cons_self, rfl⟩ hpage (shows_pageOf (.leaf b))
          hparent hmany (splitInternal_spec up pid)).imp Iff.rfl fun s' h => ?_
        refine HoldsLeaves.splitDone hH ?_
        rw [hplug, splitLeaves, if_neg hroom]
        exact h
    | nil =>
      rcases List.eq_nil_or_concat left with rfl | ⟨init, d, hinit⟩
      · rw [splitLeaf_alone hp hpage hover, LeafSettles, if_pos List.isEmpty_nil]
        refine (splitLeafHalves_child hp hpage (Nat.le_of_succ_le hlength)
          (splitInternal_spec up pid)).imp Iff.rfl fun s' h => HoldsLeaves.splitDone hH ?_
        rw [splitLeaves]
        exact h
      · rw [List.concat_eq_append] at hinit
        subst hinit
        have hfamily : init ++ [d] ++ [leaf l] = init ++ leavesAt [d, l] ++ [] := by
          simp [leavesAt]
          rfl
        have hplug : (Ctx.frame pid ks (init ++ [d]) [] up).plug (leaf l) =
            up.plug (node pid ks (init ++ leavesAt [d, l] ++ [])) := by rw [Ctx.plug, hfamily]
        rw [splitLeaf_left hp hpage hover, LeafSettles, if_neg (by simp), settles_left hover]
        rw [PendingAt, hplug] at hp
        have hparent := heads_parent pid ks (init ++ [d] ++ [leaf l])
        rw [hfamily] at hparent ⊢
        have hmany : 3 ≤ (Leaf.entries d ++ l.entries).length := by
          rw [List.length_append]
          omega
        refine (splitLeafPair_spec hp ⟨l, List.mem_cons_of_mem _ List.mem_cons_self, rfl⟩
          (shows_pageOf (.leaf d)) hpage hparent hmany (splitInternal_spec up pid)).imp Iff.rfl
            fun s' h => HoldsLeaves.splitDone hH ?_
        rw [hplug, splitLeaves, List.getLast?_concat, List.dropLast_concat]
        exact h

end SplitLeaf

end CwDb.Storage.DiskBspIndex
