import CwDb.Storage.Index.InnerMend

/-! How a leaf that is too empty is mended.

A sibling that is not too empty itself lends the entry next to the leaf, the left one
first; otherwise the leaf is merged with a sibling, the left one first. When the two
overflow a page together, they are dealt out over three leaves, one of them in a new page:
the only place where a page is allocated by an erasure (`redealtPages`). -/
namespace CwDb.Storage.DiskBspIndex
open Foundation BPlusTree

variable {ty : DataType} {H k : Nat} {s : DiskBspIndex NodeMap}

/-! ### Pairs of leaves -/

/-- A leaf and the one on its right, which lent its first entry. -/
def takeRight (a b : Leaf LeafEntry) : List (Leaf LeafEntry) :=
  [{ a with entries := a.entries ++ b.entries.head?.toList }, { b with entries := b.entries.tail }]

def mergedLeaf (a b : Leaf LeafEntry) : Leaf LeafEntry :=
  { a with entries := a.entries ++ b.entries, next := b.next }

/-- One leaf for two, or three of them if they do not fit one. -/
def joined (n : PageId) (a b : Leaf LeafEntry) : List (Leaf LeafEntry) :=
  if Fits (leaf (mergedLeaf a b)) then [mergedLeaf a b]
  else dealOver n a b (a.entries ++ b.entries)

/-- A leaf that can spare an entry. -/
def lendsEntry (d : BPlusTree LeafEntry 0) : Bool := !leafUnderflow (Leaf.entries d) false

/-- Two leaves made one, and the parent mended; or dealt out over three. -/
def JoinsLeaves (n : PageId) (up : Ctx LeafEntry H 1) (pid : PageId)
    (left : List (BPlusTree LeafEntry 0)) (a b : Leaf LeafEntry)
    (right : List (BPlusTree LeafEntry 0)) : Prop :=
  if Fits (leaf (mergedLeaf a b)) then Mends up pid (left ++ leavesAt (joined n a b) ++ right)
  else PairFits up pid left (leavesAt (joined n a b)) right

/-- What is done about a leaf that is too empty. -/
def LeafMends (n : PageId) (up : Ctx LeafEntry H 1) (pid : PageId)
    (left right : List (BPlusTree LeafEntry 0)) (l : Leaf LeafEntry) : Prop :=
  match remedy lendsEntry left right with
  | .fromLeft init d => PairFits up pid init (leavesAt (giveRight d l)) right
  | .fromRight d rest => PairFits up pid left (leavesAt (takeRight l d)) rest
  | .joinLeft init d => JoinsLeaves n up pid init d l right
  | .joinRight d rest => JoinsLeaves n up pid left l d rest
  | .alone => False

/-- The leaves then. -/
def mendedLeaves (n : PageId) (up : Ctx LeafEntry H 1) (left right : List (BPlusTree LeafEntry 0))
    (l : Leaf LeafEntry) : List (Leaf LeafEntry) :=
  match remedy lendsEntry left right with
  | .fromLeft init d => up.leavesWith init right (giveRight d l)
  | .fromRight d rest => up.leavesWith left rest (takeRight l d)
  | .joinLeft init d => up.leavesWith init right (joined n d l)
  | .joinRight d rest => up.leavesWith left rest (joined n l d)
  | .alone => up.leavesWith left right [l]

/-- The pages it takes to join two leaves. -/
def joinPages (a b : Leaf LeafEntry) : Nat := if Fits (leaf (mergedLeaf a b)) then 0 else 1

/-- The pages allocated: one if two leaves are dealt out over three. -/
def redealtPages (left right : List (BPlusTree LeafEntry 0)) (l : Leaf LeafEntry) : Nat :=
  match remedy lendsEntry left right with
  | .joinLeft _ d => joinPages d l
  | .joinRight d _ => joinPages l d
  | _ => 0

/-- The index is a tree with these leaves, of the entries of this one, and no inner node
was added. -/
def LeafMended (ty : DataType) (T : BPlusTree LeafEntry H) (ls : List (Leaf LeafEntry))
    (n size : Nat) (s : DiskBspIndex NodeMap) : Prop :=
  ∃ (h : Nat) (T' : BPlusTree LeafEntry h), Laid ty T' s ∧ T'.leaves = ls ∧
    Reforms LeafEntry.value T T' ∧ T'.inners ≤ T.inners ∧ h ≤ H ∧
      (H = 1 → ls.length = 1 → h = 0) ∧ s.size = size ∧ s.pager.count = n

theorem Mended.leafMended {T T₁ : BPlusTree LeafEntry H} {n size : Nat} {s : DiskBspIndex NodeMap}
    (h : Mended ty T₁ n size s) (hreforms : Reforms LeafEntry.value T T₁)
    (hinners : T₁.inners ≤ T.inners) : LeafMended ty T T₁.leaves n size s := by
  obtain ⟨h, T', hlaid, hregroups, hle, hheight, hflat, hsize, hcount⟩ := h
  exact ⟨h, T', hlaid, hregroups.leaves, hreforms.trans hregroups.reforms, hle.trans hinners, hheight,
    fun h1 hone => hflat h1 (by rw [hregroups.leaves, hone]), hsize, hcount⟩

section Pairs
variable {up : Ctx LeafEntry H 1} {pid : PageId} {ks : List LeafEntry}
  {left right : List (BPlusTree LeafEntry 0)} {a b : Leaf LeafEntry}
  {r : NodeRecord LeafEntry} {p₁ p₂ pa pb q : ParsedPage}

theorem inners_leaves (ks ks' : List LeafEntry) (ls ms : List (Leaf LeafEntry)) :
    (up.plug (node pid ks' (left ++ leavesAt ms ++ right))).inners =
      (up.plug (node pid ks (left ++ leavesAt ls ++ right))).inners := by
  rw [Ctx.inners_plug, Ctx.inners_plug, inners_node, inners_node]
  simp only [innersOf_append, innersOf_leaves]

theorem leavesWith_length (up : Ctx LeafEntry H 1) (left right : List (BPlusTree LeafEntry 0))
    (ls : List (Leaf LeafEntry)) : ls.length ≤ (up.leavesWith left right ls).length := by
  rw [Ctx.leavesWith, List.length_append, List.length_append, List.length_append, List.length_append]
  omega

/-- Two leaves are written anew, and the parent then. -/
theorem writeLeaves_spec (ms : List (Leaf LeafEntry)) {m₁ m₂ : Leaf LeafEntry}
    (hp : Pending ty (up.plug (node pid ks (left ++ leavesAt [a, b] ++ right))) r s)
    (hr : ∃ l ∈ [a, b], r = .leaf l)
    (hentries : ms.flatMap Leaf.entries = [a, b].flatMap Leaf.entries)
    (hids : ms.map Leaf.id = [a, b].map Leaf.id) (hnext : ms.map Leaf.next = [a, b].map Leaf.next)
    (hms : ∀ m ∈ ms, m.entries ≠ []) (hmem : ∀ m, m ∈ [m₁, m₂] ↔ m ∈ ms)
    (h₁ : Shows p₁ (.leaf m₁)) (h₂ : Shows p₂ (.leaf m₂))
    (hq : Heads q pid ((left ++ leavesAt [a, b] ++ right).map rootId)) :
    ReturnsIff (PairFits up pid left (leavesAt ms) right)
      (LeafMended ty (up.plug (node pid ks (left ++ leavesAt [a, b] ++ right)))
        (up.leavesWith left right ms) s.pager.count s.size)
      ((writePage p₁ >>= fun _ => writePage p₂ >>= fun _ => refreshParent q (pid :: up.path)) s) := by
  have hlength : ms.length = 2 := by
    have hlen := congrArg List.length hids
    simpa using hlen
  have hne : ms ≠ [] := by
    intro hnil
    rw [hnil] at hlength
    cases hlength
  have hfits : (∀ y ∈ leavesAt ms, Fits y) ↔ Fits (leaf m₁) ∧ Fits (leaf m₂) := by
    simp only [leavesAt, List.forall_mem_map, ← hmem]
    simp
  have hlt : ∀ m ∈ ms, m.id < s.pager.count := by
    intro m hm
    have hid : m.id ∈ [a, b].map Leaf.id := hids ▸ List.mem_map_of_mem hm
    obtain ⟨l, hl, hlid⟩ := List.mem_map.mp hid
    rw [← hlid]
    exact hp.child_lt (leaf l) (List.mem_append_left _ (List.mem_append_right _
      (List.mem_map_of_mem hl)))
  have hpending : Fits (leaf m₁) ∧ Fits (leaf m₂) →
      PendingAt ty up (above pid (left ++ leavesAt ms ++ right))
        (putNodes s [.leaf m₁, .leaf m₂]) := by
    intro hboth
    refine hp.rebuild_leaves [a, b] ms hr (List.Perm.of_eq hentries)
      (relinks_of_eq hids.symm hnext.symm) hne
      (fun m hm => ⟨hms m hm, hfits.mpr hboth _ (List.mem_map_of_mem hm)⟩) 0 ?_
      Multiset.nodup_zero (fun i hi => absurd hi (Multiset.notMem_zero i)) fun x => ?_
    · rw [add_zero, hids]
    · constructor
      · intro hx
        obtain ⟨m, hm, rfl⟩ := List.mem_map.mp (show x ∈ [m₁, m₂].map NodeRecord.leaf from hx)
        exact List.mem_map_of_mem ((hmem m).mp hm)
      · intro hx
        obtain ⟨m, hm, rfl⟩ := List.mem_map.mp hx
        exact List.mem_map_of_mem (f := NodeRecord.leaf) ((hmem m).mpr hm)
  have hheads : Heads q pid ((left ++ leavesAt ms ++ right).map rootId) := by
    refine ⟨hq.type, hq.pageId, ?_⟩
    have hsame : (leavesAt ms).map rootId = (leavesAt [a, b]).map rootId := by
      rw [leavesAt, leavesAt, List.map_map, List.map_map]
      exact hids
    rw [hq.children, List.map_append, List.map_append, List.map_append, List.map_append, hsame]
  have hspec := writePair_refresh h₁ h₂
    ⟨hlt m₁ ((hmem m₁).mp (by simp)), hlt m₂ ((hmem m₂).mp (by simp))⟩
    (fun hf₁ hf₂ => hpending ⟨hf₁, hf₂⟩) hheads
  refine hspec.imp_of (and_congr_left fun _ => hfits.symm) fun hfit s' h => ?_
  have hall := (hpending hfit.1).reforms_leaves ks hne (List.Perm.of_eq hentries) fun _ => hentries
  have hmany := leavesWith_length up left right ms
  rw [hlength] at hmany
  rw [← Ctx.leaves_plug_leaves up pid (minima (left ++ leavesAt ms ++ right))]
  refine (h.mended fun _ hone => ?_).leafMended hall (inners_leaves ks _ [a, b] ms).le
  rw [Ctx.leaves_plug_leaves] at hone
  omega

/-- The leaves dealt out over three, in the order they stand in. -/
theorem redistributeLeafPair_spec
    (hp : Pending ty (up.plug (node pid ks (left ++ leavesAt [a, b] ++ right))) r s)
    (hr : ∃ l ∈ [a, b], r = .leaf l) (ha : Shows pa (.leaf a)) (hb : Shows pb (.leaf b))
    (hq : Heads q pid ((left ++ leavesAt [a, b] ++ right).map rootId))
    (hindex : q.children.idxOf? a.id = some left.length)
    (hmany : 3 ≤ (a.entries ++ b.entries).length) :
    ReturnsIff (PairFits up pid left (leavesAt (dealOver s.pager.count a b (a.entries ++ b.entries))) right)
      (LeafMended ty (up.plug (node pid ks (left ++ leavesAt [a, b] ++ right)))
        (up.leavesWith left right (dealOver s.pager.count a b (a.entries ++ b.entries)))
        (s.pager.count + 1) s.size)
      (redistributeLeafPair pa pb q (pid :: up.path) s) := by
  have hid : pa.pageId = a.id := ha.pageId
  rw [redistributeLeafPair, ha.leaf.2.1, hb.leaf.2.1]
  dsimp only
  by_cases hover : leafOverflow (threeWayRuns (a.entries ++ b.entries)).1 = true ∨
      leafOverflow (threeWayRuns (a.entries ++ b.entries)).2.2 = true
  · rw [if_pos (by simpa using hover)]
    intro h
    have hfirst : leafOverflow (threeWayRuns (a.entries ++ b.entries)).1 = false :=
      h.1 (leaf { a with entries := (threeWayRuns (a.entries ++ b.entries)).1
                         next := s.pager.count }) (by simp [dealOver, leavesAt])
    have hthird : leafOverflow (threeWayRuns (a.entries ++ b.entries)).2.2 = false :=
      h.1 (leaf { b with entries := (threeWayRuns (a.entries ++ b.entries)).2.2 })
        (by simp [dealOver, leavesAt])
    rw [hfirst, hthird] at hover
    exact hover.elim Bool.false_ne_true Bool.false_ne_true
  · rw [if_neg (by simpa using hover), bind_ok (allocateNodePage_ok hp.count_pos)]
    refine writeDealt s.pager.count ha hb fun hfits => ?_
    have hp2 := dealOver_pending hp hr (List.Perm.refl _) hmany hfits
    have hrefresh := refreshParent_spec hp2 (dealOver_heads s.pager.count hq)
    rw [hid, hindex]
    rw [dealOver_count hp, putNodes_size] at hrefresh
    refine hrefresh.imp Iff.rfl fun s' h => ?_
    have hall := dealOver_reforms ks hp2 (List.Perm.refl _) fun _ => rfl
    have hthree := leavesWith_length up left right
      (dealOver s.pager.count a b (a.entries ++ b.entries))
    have hlength : (dealOver s.pager.count a b (a.entries ++ b.entries)).length = 3 := rfl
    rw [hlength] at hthree
    rw [← Ctx.leaves_plug_leaves up pid]
    refine (h.mended fun _ hone => ?_).leafMended hall (inners_leaves ks _ _ _).le
    rw [Ctx.leaves_plug_leaves] at hone
    omega

/-- The place of a child in its parent. -/
theorem pair_index (hp : Pending ty (up.plug (node pid ks (left ++ leavesAt [a, b] ++ right))) r s)
    (hq : Heads q pid ((left ++ leavesAt [a, b] ++ right).map rootId)) :
    q.children.idxOf? a.id = some left.length := by
  have hfamily : left ++ leavesAt [a, b] ++ right = left ++ leaf a :: leaf b :: right := by
    simp [leavesAt]
  have hplug : up.plug (node pid ks (left ++ leavesAt [a, b] ++ right)) =
      (Ctx.frame pid ks left (leaf b :: right) up).plug (leaf a) := by rw [Ctx.plug, hfamily]
  rw [hplug] at hp
  rw [hq.children, hfamily]
  exact hp.hole_index

/-- The right leaf of two is not the first. -/
theorem first_ne_right (hp : Pending ty (up.plug (node pid ks (left ++ leavesAt [a, b] ++ right))) r s) :
    s.firstLeafPage ≠ b.id := by
  have hlinked := hp.linked
  have hnodup := leafIds_nodup hp.nodup
  have hsplit : up.leavesWith left right [a, b] =
      (up.leavesBefore ++ (leavesOf left ++ [a])) ++ b :: (leavesOf right ++ up.leavesAfter) := by
    simp [Ctx.leavesWith]
  rw [Ctx.leaves_plug_leaves, hsplit] at hlinked hnodup
  exact links_start_ne hlinked (by simp) hnodup

theorem pair_encodes
    (hp : Pending ty (up.plug (node pid ks (left ++ leavesAt [a, b] ++ right))) r s) :
    ∀ e ∈ a.entries ++ b.entries, e.Encodes ty := by
  intro e he
  refine hp.encodes_all e ?_
  rw [Ctx.entries_plug, entries_node, entriesOf_append, entriesOf_append, entriesOf_leaves]
  simp only [List.flatMap_cons, List.flatMap_nil, List.append_nil, List.mem_append] at he ⊢
  exact .inl (.inr (.inl (.inr he)))

theorem merged_relinks (a b : Leaf LeafEntry) : Relinks [a, b] [mergedLeaf a b] :=
  fun _ _ h => ⟨h.1, h.2.2⟩

/-- One leaf for two. -/
theorem mergeLeaves_spec
    (hp : Pending ty (up.plug (node pid ks (left ++ leavesAt [a, b] ++ right))) r s)
    (hr : ∃ l ∈ [a, b], r = .leaf l) (ha : Shows pa (.leaf a)) (hb : Shows pb (.leaf b))
    (hq : Heads q pid ((left ++ leavesAt [a, b] ++ right).map rootId))
    (hne : a.entries ++ b.entries ≠ []) :
    ReturnsIff (JoinsLeaves s.pager.count up pid left a b right)
      (LeafMended ty (up.plug (node pid ks (left ++ leavesAt [a, b] ++ right)))
        (up.leavesWith left right (joined s.pager.count a b))
        (s.pager.count + joinPages a b) s.size)
      (fixLeafUnderflow.mergePair pa pb q left.length (pid :: up.path) b.id s) := by
  obtain ⟨htype, hentries, -⟩ := ha.leaf
  have hshows : Shows { pa with leafEntries := a.entries ++ b.entries, nextLeaf := b.next }
      (.leaf (mergedLeaf a b)) := shows_leaf htype ha.pageId rfl rfl
  rw [fixLeafUnderflow.mergePair, hentries, hb.leaf.2.1, hb.leaf.2.2, JoinsLeaves, joinPages]
  dsimp only
  by_cases hfits : Fits (leaf (mergedLeaf a b))
  swap
  · have hover : leafOverflow (a.entries ++ b.entries) = true := (Bool.not_eq_false _).mp hfits
    rw [if_pos hover, if_neg hfits, if_neg hfits, joined, if_neg hfits]
    exact redistributeLeafPair_spec hp hr ha hb hq (pair_index hp hq)
      (length_of_leafOverflow (pair_encodes hp) hover)
  have hover : ¬ leafOverflow (a.entries ++ b.entries) = true := fun h =>
    Bool.false_ne_true ((show leafOverflow (a.entries ++ b.entries) = false from hfits).symm.trans h)
  have hfirst : (if s.firstLeafPage = b.id then { s with firstLeafPage := pa.pageId } else s) = s :=
    if_neg (first_ne_right hp)
  rw [if_neg hover, if_pos hfits, if_pos hfits, modify_bind_apply, hfirst, joined, if_pos hfits,
    bind_ok (writePage_shows hshows hfits)]
  have hsame : [mergedLeaf a b].flatMap Leaf.entries = [a, b].flatMap Leaf.entries := by
    simp [mergedLeaf]
  have hp2 := hp.rebuild_leaves [a, b] [mergedLeaf a b] hr (List.Perm.of_eq hsame) (merged_relinks a b)
    (List.cons_ne_nil _ _) (fun m hm => ⟨by rwa [List.mem_singleton.mp hm],
      by rwa [List.mem_singleton.mp hm]⟩) 0
    (by
      rw [add_zero]
      exact Multiset.coe_le.mpr (List.singleton_sublist.mpr List.mem_cons_self).subperm)
    Multiset.nodup_zero (fun i hi => absurd hi (Multiset.notMem_zero i)) fun x => Iff.rfl
  have hheads : Heads (withoutChild q left.length) pid
      ((left ++ leavesAt [mergedLeaf a b] ++ right).map rootId) := by
    refine ⟨hq.type, hq.pageId, ?_⟩
    have herase := eraseIdx_family (left.map rootId) (right.map rootId) a.id b.id
    rw [List.length_map] at herase
    rw [withoutChild, hq.children]
    simpa [mergedLeaf, leavesAt] using herase
  have hcount : (s.putNode (.leaf (mergedLeaf a b))).pager.count = s.pager.count :=
    max_eq_left (hp.child_lt (leaf a) (by simp [leavesAt]))
  have hspec := handleInternalAfterChildRemoved_spec up pid _ _ _ hp2 hheads
  rw [show putNodes s ([mergedLeaf a b].map .leaf) = s.putNode (.leaf (mergedLeaf a b)) from rfl,
    hcount] at hspec
  refine hspec.imp Iff.rfl fun s' h => ?_
  have hall := hp2.reforms_leaves ks (List.cons_ne_nil _ _) (List.Perm.of_eq hsame) fun _ => hsame
  rw [← Ctx.leaves_plug_leaves up pid]
  exact h.leafMended hall (inners_leaves ks _ _ _).le

end Pairs

/-! ### The siblings in their order -/

section Siblings
variable {up : Ctx LeafEntry H 1} {pid : PageId} {ks : List LeafEntry}
  {init left right : List (BPlusTree LeafEntry 0)} {d l : Leaf LeafEntry} {p q : ParsedPage}

/-- A leaf that lends has another entry. -/
theorem length_of_lendsEntry {d : Leaf LeafEntry} (hes : ∀ e ∈ d.entries, e.Encodes ty)
    (h : lendsEntry (leaf d) = true) : 2 ≤ d.entries.length := by
  have hfill : kMinLeafFillBytes = 2734 := rfl
  have hle := leafPayloadBytes_le hes
  have hunder : leafUnderflow d.entries false = false := by
    rwa [lendsEntry, Bool.not_eq_true'] at h
  rw [leafUnderflow, if_neg Bool.false_ne_true] at hunder
  split at hunder
  · cases hunder
  · have hbytes := of_decide_eq_false hunder
    omega

/-- The left sibling lends its last entry. -/
theorem takeLeft_lends (hp : PendingAt ty (Ctx.frame pid ks (init ++ [leaf d]) right up) (leaf l) s)
    (hpage : Shows p (.leaf l))
    (hq : Heads q pid ((init ++ [leaf d] ++ leaf l :: right).map rootId))
    (hlends : lendsEntry (leaf d) = true) :
    ReturnsIff (PairFits up pid init (leavesAt (giveRight d l)) right)
      (LeafMended ty ((Ctx.frame pid ks (init ++ [leaf d]) right up).plug (leaf l))
        (up.leavesWith init right (giveRight d l)) s.pager.count s.size)
      (fixLeafUnderflow.borrowLeft p q (init ++ [leaf d]).length (pid :: up.path) s) := by
  have hd := hp.read_sibling (rootRecord_mem _)
    (.inl (List.mem_append_right init (List.mem_singleton_self (leaf d))))
  rw [← left_sibling init right (leaf l) (leaf d), ← hq.children] at hd
  have hfamily : init ++ [leaf d] ++ leaf l :: right = init ++ leavesAt [d, l] ++ right := by
    simp [leavesAt]
  have hplug : (Ctx.frame pid ks (init ++ [leaf d]) right up).plug (leaf l) =
      up.plug (node pid ks (init ++ leavesAt [d, l] ++ right)) := by rw [Ctx.plug, hfamily]
  rw [PendingAt, hplug] at hp
  rw [hplug]
  rw [hfamily] at hq
  have htwo := length_of_lendsEntry (fun e he => pair_encodes hp e (List.mem_append_left _ he)) hlends
  have hlast : d.entries.getLast?.toList = [d.entries.getLastD default] := by
    rcases List.eq_nil_or_concat d.entries with hnil | ⟨others, moved, hes⟩
    · rw [hnil] at htwo
      cases htwo
    · rw [hes]
      simp
  rw [fixLeafUnderflow.borrowLeft, if_pos (by simp), bind_ok hd, if_neg (fun h => h rfl)]
  refine (congrArg (ReturnsIff _ _) (congrFun (if_pos hlends) s)).mpr ?_
  refine writeLeaves_spec (giveRight d l) hp ⟨l, List.mem_cons_of_mem _ List.mem_cons_self, rfl⟩
    (giveRight_entries d l) rfl rfl (fun m hm => ?_) (fun m => Iff.rfl)
    (shows_leaf rfl rfl rfl rfl) (shows_leaf hpage.leaf.1 hpage.pageId ?_ hpage.leaf.2.2) hq
  · rcases List.mem_cons.mp hm with rfl | hm
    · rw [givenRight, ← List.length_pos_iff, List.length_dropLast]
      omega
    · rw [List.mem_singleton.mp hm, gotLeft, hlast]
      exact List.cons_ne_nil _ _
  · rw [gotLeft, hlast, hpage.leaf.2.1]
    rfl

/-- The right sibling lends its first entry. -/
theorem takeRight_lends (hp : PendingAt ty (Ctx.frame pid ks left (leaf d :: right) up) (leaf l) s)
    (hpage : Shows p (.leaf l))
    (hq : Heads q pid ((left ++ leaf l :: leaf d :: right).map rootId))
    (hlends : lendsEntry (leaf d) = true) :
    ReturnsIff (PairFits up pid left (leavesAt (takeRight l d)) right)
      (LeafMended ty ((Ctx.frame pid ks left (leaf d :: right) up).plug (leaf l))
        (up.leavesWith left right (takeRight l d)) s.pager.count s.size)
      (fixLeafUnderflow.borrowRight p q left.length (pid :: up.path) s) := by
  have hd := hp.read_sibling (rootRecord_mem _) (.inr (List.mem_cons_self (a := leaf d)))
  rw [← right_sibling left right (leaf l) (leaf d), ← hq.children] at hd
  have hfamily : left ++ leaf l :: leaf d :: right = left ++ leavesAt [l, d] ++ right := by
    simp [leavesAt]
  have hplug : (Ctx.frame pid ks left (leaf d :: right) up).plug (leaf l) =
      up.plug (node pid ks (left ++ leavesAt [l, d] ++ right)) := by rw [Ctx.plug, hfamily]
  rw [PendingAt, hplug] at hp
  rw [hplug]
  have htwo := length_of_lendsEntry (fun e he => pair_encodes hp e (List.mem_append_right _ he)) hlends
  cases hes : d.entries with
  | nil =>
    rw [hes] at htwo
    cases htwo
  | cons moved others =>
    rw [hes, List.length_cons] at htwo
    have hothers : others ≠ [] := List.length_pos_iff.mp (Nat.lt_of_succ_lt_succ htwo)
    have hdpage : (pageOf (leaf d).rootRecord).leafEntries = moved :: others := hes
    rw [fixLeafUnderflow.borrowRight, if_pos (by simp [hq.children]), bind_ok hd,
      if_neg (fun h => h rfl)]
    refine (congrArg (ReturnsIff _ _) (congrFun (if_pos hlends) s)).mpr ?_
    rw [hfamily] at hq
    have htaken : takeRight l d =
        [{ l with entries := l.entries ++ [moved] }, { d with entries := others }] := by
      rw [takeRight, hes]
      rfl
    have hswapped : ∀ m : Leaf LeafEntry,
        m ∈ [{ d with entries := others }, { l with entries := l.entries ++ [moved] }] ↔
          m ∈ [{ l with entries := l.entries ++ [moved] }, { d with entries := others }] := by
      intro m
      simp [or_comm]
    rw [htaken]
    refine writeLeaves_spec [{ l with entries := l.entries ++ [moved] }, { d with entries := others }]
      hp ⟨l, List.mem_cons_self, rfl⟩ (by simp [hes]) rfl rfl (fun m hm => ?_)
      hswapped (shows_leaf rfl rfl ?_ rfl)
      (shows_leaf hpage.leaf.1 hpage.pageId ?_ hpage.leaf.2.2) hq
    · rcases List.mem_cons.mp hm with rfl | hm
      · simp
      · rwa [List.mem_singleton.mp hm]
    · rw [hdpage]
      rfl
    · rw [hdpage, hpage.leaf.2.1]
      rfl

theorem takeLeft_next (hp : PendingAt ty (Ctx.frame pid ks left right up) (leaf l) s)
    (hq : q.children = (left ++ leaf l :: right).map rootId)
    (h : ∀ d ∈ left.getLast?, lendsEntry d = false) (path : List PageId) :
    fixLeafUnderflow.borrowLeft p q left.length path s =
      fixLeafUnderflow.borrowRight p q left.length path s := by
  rw [fixLeafUnderflow.borrowLeft]
  rcases List.eq_nil_or_concat left with rfl | ⟨init, d, hleft⟩
  · exact congrFun (if_neg (lt_irrefl 0)) s
  · rw [List.concat_eq_append] at hleft
    subst hleft
    have hd := hp.read_sibling (rootRecord_mem _)
      (.inl (List.mem_append_right init (List.mem_singleton_self d)))
    rw [← left_sibling init right (leaf l) d, ← hq] at hd
    have hno : lendsEntry d = false := h d (by simp)
    rw [if_pos (by simp), bind_ok hd, if_neg (fun h => h rfl)]
    exact congrFun (if_neg (by exact fun h => Bool.false_ne_true (hno.symm.trans h))) s

theorem takeRight_next (hp : PendingAt ty (Ctx.frame pid ks left right up) (leaf l) s)
    (hq : q.children = (left ++ leaf l :: right).map rootId)
    (h : ∀ d ∈ right.head?, lendsEntry d = false) (path : List PageId) :
    fixLeafUnderflow.borrowRight p q left.length path s =
      fixLeafUnderflow.merge p q left.length path s := by
  rw [fixLeafUnderflow.borrowRight]
  cases right with
  | nil => exact congrFun (if_neg (by simp [hq])) s
  | cons d rest =>
    have hd := hp.read_sibling (rootRecord_mem _) (.inr (List.mem_cons_self (a := d)))
    rw [← right_sibling left rest (leaf l) d, ← hq] at hd
    have hno : lendsEntry d = false := h d rfl
    rw [if_pos (by simp [hq]), bind_ok hd, if_neg (fun h => h rfl)]
    exact congrFun (if_neg (by exact fun h => Bool.false_ne_true (hno.symm.trans h))) s

theorem mergeLeaves_left (hp : PendingAt ty (Ctx.frame pid ks (init ++ [leaf d]) right up) (leaf l) s)
    (hpage : Shows p (.leaf l))
    (hq : Heads q pid ((init ++ [leaf d] ++ leaf l :: right).map rootId)) :
    ReturnsIff (JoinsLeaves s.pager.count up pid init d l right)
      (LeafMended ty ((Ctx.frame pid ks (init ++ [leaf d]) right up).plug (leaf l))
        (up.leavesWith init right (joined s.pager.count d l))
        (s.pager.count + joinPages d l) s.size)
      (fixLeafUnderflow.merge p q (init ++ [leaf d]).length (pid :: up.path) s) := by
  have hmem : leaf d ∈ init ++ [leaf d] := List.mem_append_right init (List.mem_singleton_self _)
  have hd := hp.read_sibling (rootRecord_mem _) (.inl hmem)
  have hne : d.entries ≠ [] := by
    refine hp.filled d ?_ ?_
    · rw [Ctx.plug]
      exact Ctx.leaves_hole (List.mem_flatMap.mpr ⟨leaf d, List.mem_append_left _ hmem,
        List.mem_singleton_self d⟩)
    · exact hp.sibling_ne (rootRecord_mem _) (.inl hmem)
  rw [← left_sibling init right (leaf l) (leaf d), ← hq.children] at hd
  have hfamily : init ++ [leaf d] ++ leaf l :: right = init ++ leavesAt [d, l] ++ right := by
    simp [leavesAt]
  have hplug : (Ctx.frame pid ks (init ++ [leaf d]) right up).plug (leaf l) =
      up.plug (node pid ks (init ++ leavesAt [d, l] ++ right)) := by rw [Ctx.plug, hfamily]
  have hid : p.pageId = l.id := hpage.pageId
  rw [PendingAt, hplug] at hp
  rw [hplug]
  rw [hfamily] at hq
  rw [fixLeafUnderflow.merge, if_pos (by simp), bind_ok hd, List.length_append,
    List.length_singleton, Nat.add_sub_cancel, hid]
  exact mergeLeaves_spec hp ⟨l, List.mem_cons_of_mem _ List.mem_cons_self, rfl⟩ (shows_pageOf (.leaf d))
    hpage hq (List.append_ne_nil_of_left_ne_nil hne _)

theorem mergeLeaves_right (hp : PendingAt ty (Ctx.frame pid ks [] (leaf d :: right) up) (leaf l) s)
    (hpage : Shows p (.leaf l)) (hq : Heads q pid ((leaf l :: leaf d :: right).map rootId)) :
    ReturnsIff (JoinsLeaves s.pager.count up pid [] l d right)
      (LeafMended ty ((Ctx.frame pid ks [] (leaf d :: right) up).plug (leaf l))
        (up.leavesWith [] right (joined s.pager.count l d))
        (s.pager.count + joinPages l d) s.size)
      (fixLeafUnderflow.merge p q 0 (pid :: up.path) s) := by
  have hd := hp.read_sibling (rootRecord_mem _) (.inr (List.mem_cons_self (a := leaf d)))
  have hne : d.entries ≠ [] := by
    refine hp.filled d ?_ ?_
    · rw [Ctx.plug]
      exact Ctx.leaves_hole (List.mem_flatMap.mpr ⟨leaf d,
        List.mem_cons_of_mem (leaf l) List.mem_cons_self, List.mem_singleton_self d⟩)
    · exact hp.sibling_ne (rootRecord_mem _) (.inr List.mem_cons_self)
  have hget : q.children.getD 1 0 = (leaf d).rootId := by
    rw [hq.children]
    rfl
  rw [← hget] at hd
  have hplug : (Ctx.frame pid ks [] (leaf d :: right) up).plug (leaf l) =
      up.plug (node pid ks ([] ++ leavesAt [l, d] ++ right)) := by rw [Ctx.plug]; rfl
  rw [PendingAt, hplug] at hp
  rw [hplug]
  rw [fixLeafUnderflow.merge, if_neg (lt_irrefl 0), if_neg (by simp [hq.children]), bind_ok hd]
  exact mergeLeaves_spec hp ⟨l, List.mem_cons_self, rfl⟩ hpage (shows_pageOf (.leaf d)) hq
    (List.append_ne_nil_of_right_ne_nil _ hne)

/-- A leaf that is too empty, and everything above it. -/
theorem fixLeafUnderflow_spec (hp : PendingAt ty (Ctx.frame pid ks left right up) (leaf l) s)
    (hpage : Shows p (.leaf l)) :
    ReturnsIff (LeafMends s.pager.count up pid left right l)
      (LeafMended ty ((Ctx.frame pid ks left right up).plug (leaf l))
        (mendedLeaves s.pager.count up left right l)
        (s.pager.count + redealtPages left right l) s.size)
      (fixLeafUnderflow p (l.id :: pid :: up.path) s) := by
  have hid : p.pageId = l.id := hpage.pageId
  have hnotRoot : l.id ≠ s.rootPage := by
    rw [hp.root]
    exact rootId_ne_root hp.nodup
  have hread := hp.read_parent (rootRecord_mem _)
  have hq : Heads (pageOf (.inner pid ks ((left ++ leaf l :: right).map rootId))) pid
      ((left ++ leaf l :: right).map rootId) := (shows_pageOf _).heads
  have hindex : (pageOf (.inner pid ks ((left ++ leaf l :: right).map rootId))).children.idxOf?
      p.pageId = some left.length := by
    rw [hid]
    exact hp.hole_index
  rw [fixLeafUnderflow, if_neg (fun h => h hid.symm), get_bind_apply,
    if_neg (by rw [hid]; exact hnotRoot), bind_ok hread, if_neg hq.type, hindex]
  generalize pageOf (.inner pid ks ((left ++ leaf l :: right).map rootId)) = q at hq
  dsimp only
  rw [LeafMends, mendedLeaves, redealtPages]
  rcases List.eq_nil_or_concat left with rfl | ⟨init, d, hleft⟩
  · rw [takeLeft_next hp hq.children (by simp)]
    cases right with
    | nil =>
      rw [takeRight_next hp hq.children (by simp), fixLeafUnderflow.merge,
        if_neg (by simp), if_pos (by simp [hq.children])]
      exact fun h => h
    | cons r rest =>
      rw [remedy_nil]
      by_cases hr : lendsEntry r = true
      · rw [if_pos hr]
        exact takeRight_lends hp hpage hq hr
      · rw [if_neg hr, takeRight_next hp hq.children (by simpa using hr)]
        exact mergeLeaves_right hp hpage hq
  · rw [List.concat_eq_append] at hleft
    subst hleft
    by_cases hd : lendsEntry d = true
    · rw [remedy_fromLeft hd]
      exact takeLeft_lends hp hpage hq hd
    · rw [takeLeft_next hp hq.children (by simpa using hd)]
      have hd' : lendsEntry d = false := by simpa using hd
      by_cases hr : ∀ r ∈ right.head?, lendsEntry r = false
      · rw [remedy_joinLeft hd' hr, takeRight_next hp hq.children hr]
        exact mergeLeaves_left hp hpage hq
      · cases right with
        | nil => exact absurd (by simp) hr
        | cons r rest =>
          have hr' : lendsEntry r = true := by simpa using hr
          rw [remedy_fromRight_left hd' hr']
          exact takeRight_lends hp hpage hq hr'

end Siblings

end CwDb.Storage.DiskBspIndex
