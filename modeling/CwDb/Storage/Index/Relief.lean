import CwDb.Storage.Index.Runs
import CwDb.Storage.Index.Following
import CwDb.Storage.Index.Held

/-! When a sibling spares an overflowing node a page.

A leaf gives its last entry to the right. `try_give_to_left_leaf` takes an entry from the left
instead of giving one, and the two `try_redistribute_internal` take a child from the sibling:
they only make the node that overflows larger, and never help. So a page is allocated wherever
the right sibling of a leaf has no room, whatever the left one has, and for every inner node
that is split at all (`relieved_iff`). -/
namespace CwDb.Storage.DiskBspIndex
open Foundation BPlusTree

variable {ty : DataType} {H k n : Nat} {s : DiskBspIndex NodeMap} {α : Type}

/-! ### Pages allocated stay -/

/-- The index code after it allocated a page: there is nothing to follow, only pages to keep. -/
def grown (n : Nat) : Following NodeMap NodeMap where
  Lost s := n < s.count
  Rel _ _ := False
  nonempty := ⟨NodeMap.empty⟩
  readPage id := by
    refine ⟨fun s h => ?_, fun _ _ h => h.elim⟩
    show n < (stateOf (NodeMap.readPage id s)).count
    rwa [NodeMap.stateOf_readPage id s]
  writePage p := by
    refine ⟨fun s h => ?_, fun _ _ h => h.elim⟩
    show n < (stateOf (NodeMap.writePage p s)).count
    unfold NodeMap.writePage
    split
    · exact h
    · exact h.trans_le (le_max_left _ _)
  allocateNodePage := by
    refine ⟨fun s h => ?_, fun _ _ h => h.elim⟩
    have hpos : ¬ s.count = 0 := Nat.pos_iff_ne_zero.mp ((Nat.zero_le n).trans_lt h)
    show n < (stateOf (NodeMap.allocateNodePage s)).count
    rw [NodeMap.allocateNodePage, if_neg hpos]
    exact h.trans_le (le_max_left _ _)
  reservePage := ⟨fun _ h => h.trans_le (le_max_left _ _), fun _ _ h => h.elim⟩
  writeSuperblock _ _ _ := ⟨fun _ h => h.trans_le (le_max_left _ _), fun _ _ h => h.elim⟩
  flush := ⟨fun _ h => h, fun _ _ h => h.elim⟩
  pageCount _ _ h := h.elim

theorem keeps_grown {x : IndexM NodeMap α} (h : Mirrors (grown n) x x) :
    Keeps (fun s => n < s.pager.count) x := h.keeps

/-- A page of the store, written or refused: none is new. -/
theorem writePage_count {p : ParsedPage} {r : NodeRecord LeafEntry} (hp : Shows p r)
    (hlt : r.id < s.pager.count) : (stateOf (writePage p s)).pager.count = s.pager.count := by
  cases hfits : NodeMap.overflows (pageOf r) with
  | false =>
    have hcount : (putNodes s [r]).pager.count = s.pager.count :=
      putNodes_count (List.forall_mem_singleton.mpr hlt)
    rw [writePage_shows hp hfits]
    exact hcount
  | true =>
    obtain ⟨e, hthrow⟩ := writePage_shows_overflows (s := s) hp hfits
    rw [hthrow]
    rfl

/-- After the page was allocated there are more, whatever comes then. -/
theorem lt_after_allocate {x : PageId → IndexM NodeMap α} (hpos : 0 < s.pager.count)
    (h : ∀ m, Mirrors (grown s.pager.count) (x m) (x m)) :
    s.pager.count < (stateOf ((allocateNodePage >>= x) s)).pager.count := by
  rw [bind_ok (allocateNodePage_ok hpos)]
  apply keeps_grown (h _)
  exact (Nat.lt_succ_self _).trans_le (le_max_right _ _)

/-! ### Leaves -/

section Leaves
variable {split : ParsedPage → IndexM NodeMap Unit} {p q : ParsedPage} {path : List PageId}

theorem splitLeafPair_allocates (hpos : 0 < s.pager.count)
    (hencodes : ∀ e ∈ p.leafEntries ++ q.leafEntries, e.Encodes ty) (parent : ParsedPage) (i : Nat)
    (hsplit : ∀ x, Mirrors (grown s.pager.count) (split x) (split x)) :
    s.pager.count < (stateOf (splitLeafPair split p q parent i s)).pager.count := by
  rw [splitLeafPair, sortEntries_encodes hencodes, bind_ok (fromExcept_ok_apply _ _)]
  apply lt_after_allocate hpos
  intro m
  refine .ite (.throw _) (.bind (Mirrors.writePage _ _) fun _ => .bind (Mirrors.writePage _ _) fun _ => ?_)
  refine .bind (Mirrors.writePage _ _) fun _ => .bind (Mirrors.rebuildInternalKeys _ _) fun x => ?_
  exact Mirrors.writeOrSplit _ hsplit x

theorem splitLeafHalves_allocates (hpos : 0 < s.pager.count)
    (hsplit : ∀ x, Mirrors (grown s.pager.count) (split x) (split x)) :
    s.pager.count < (stateOf (splitLeafHalves split p path s)).pager.count := by
  rw [splitLeafHalves]
  apply lt_after_allocate hpos
  intro m
  dsimp only
  cases p.leafEntries.drop (p.leafEntries.length / 2) with
  | nil => exact .throw _
  | cons e es => exact Mirrors.insertIntoParent _ hsplit _ e _ path

end Leaves

/-- What is left of a leaf that gave its first entry to the left. -/
def givenLeft (a : Leaf LeafEntry) : Leaf LeafEntry := { a with entries := a.entries.tail }

/-- A leaf that got the first entry of the one on its right. -/
def gotRight (a b : Leaf LeafEntry) : Leaf LeafEntry :=
  { a with entries := a.entries ++ b.entries.head?.toList }

/-- The right sibling has room for the leaf's last entry. The parent is not asked. -/
def TakesRight : {H : Nat} → Ctx LeafEntry H 0 → Leaf LeafEntry → Prop
  | _, .frame _ _ _ (b :: _) _, l => Fits (leaf (givenRight l)) ∧ Fits (leaf (gotLeft l b))
  | _, _, _ => False

/-- And the parent has room for its new separators. -/
def GivesRight : {H : Nat} → Ctx LeafEntry H 0 → Leaf LeafEntry → Prop
  | _, .frame pid _ left (b :: rest) _, l =>
    (Fits (leaf (givenRight l)) ∧ Fits (leaf (gotLeft l b))) ∧
      Fits (above pid (left ++ leavesAt (giveRight l b) ++ rest))
  | _, _, _ => False

/-- The same of the left sibling and the leaf's first entry. -/
def GivesLeft : {H : Nat} → Ctx LeafEntry H 0 → Leaf LeafEntry → Prop
  | _, .frame pid _ left right _, l => ∃ a ∈ left.getLast?,
    (Fits (leaf (gotRight a l)) ∧ Fits (leaf (givenLeft l))) ∧
      Fits (above pid (left.dropLast ++ leavesAt [gotRight a l, givenLeft l] ++ right))
  | _, .top, _ => False

theorem GivesRight.takesRight {ctx : Ctx LeafEntry H 0} {l : Leaf LeafEntry}
    (h : GivesRight ctx l) : TakesRight ctx l := by
  cases ctx with
  | top => exact h
  | frame pid ks left right up =>
    cases right with
    | nil => exact h
    | cons b rest => exact h.1

section SplitLeaf
variable {l : Leaf LeafEntry} {p : ParsedPage}

/-- The split of a leaf allocates no page just when the right sibling takes the entry. -/
theorem splitLeaf_pages (ctx : Ctx LeafEntry H 0) (hp : PendingAt ty ctx (leaf l) s)
    (hpage : Shows p (.leaf l)) (hover : ¬ Fits (leaf l)) :
    (stateOf (splitLeaf p (l.id :: ctx.path) s)).pager.count = s.pager.count ↔ TakesRight ctx l := by
  have hpos := hp.count_pos
  have hencodes : ∀ e ∈ l.entries, e.Encodes ty := hp.encodes
  have hinner : ∀ path x, Mirrors (grown s.pager.count) (splitInternal path x) (splitInternal path x) :=
    Mirrors.splitInternal _
  cases ctx with
  | top =>
    have hsplit : splitLeaf p [l.id] s = splitLeafHalves (fun _ => return) p [l.id] s := rfl
    rw [Ctx.path, hsplit]
    exact iff_of_false (splitLeafHalves_allocates hpos fun _ => .pure _).ne' id
  | frame pid ks left right up =>
    have hentries : ∀ d ∈ left ++ leaf l :: right, ∀ e ∈ Leaf.entries d, e.Encodes ty := by
      intro d hd e he
      apply hp.encodes_all e
      have hleaf : BPlusTree.entries d = Leaf.entries d := entries_leaf d
      rw [Ctx.plug, Ctx.entries_plug, entries_node]
      refine List.mem_append_left _ (List.mem_append_right _ (List.mem_flatMap.mpr ⟨d, hd, ?_⟩))
      rwa [hleaf]
    cases right with
    | cons b rest =>
      by_cases hroom : Fits (leaf (givenRight l)) ∧ Fits (leaf (gotLeft l b))
      · have hrest : (givenRight l).entries ≠ [] := by
          have hmany := length_of_leafOverflow hencodes ((Bool.not_eq_false _).mp hover)
          rw [givenRight, ← List.length_pos_iff, List.length_dropLast]
          omega
        obtain ⟨q, hshows, hrun⟩ := splitLeaf_gives (b := b) hp hpage hrest hroom
        have hfamily := hp
        rw [PendingAt, Ctx.plug] at hfamily
        have hlt := hfamily.child_lt
        have hcount : (putNodes s ((giveRight l b).map .leaf)).pager.count = s.pager.count := by
          apply putNodes_count
          simp only [giveRight, List.map_cons, List.map_nil, List.forall_mem_cons]
          exact ⟨hlt (leaf l) (by simp), hlt b (by simp), by simp⟩
        have hp2 := giveRight_pending hp hrest hroom.1 hroom.2
        refine iff_of_true ((congrArg (fun r => (stateOf r).pager.count) hrun).trans ?_) hroom
        exact (writePage_count hshows hp2.lt).trans hcount
      · have hpair : ∀ e ∈ p.leafEntries ++ Leaf.entries b, e.Encodes ty := by
          rw [hpage.leaf.2.1]
          exact List.forall_mem_append.mpr ⟨hencodes, hentries b (by simp)⟩
        rw [splitLeaf_right hp hpage hover hroom]
        exact iff_of_false (splitLeafPair_allocates hpos hpair _ _ (hinner _)).ne' hroom
    | nil =>
      rcases List.eq_nil_or_concat left with rfl | ⟨init, d, hinit⟩
      · rw [splitLeaf_alone hp hpage hover]
        exact iff_of_false (splitLeafHalves_allocates hpos (hinner _)).ne' id
      · rw [List.concat_eq_append] at hinit
        subst hinit
        have hpair : ∀ e ∈ Leaf.entries d ++ p.leafEntries, e.Encodes ty := by
          rw [hpage.leaf.2.1]
          exact List.forall_mem_append.mpr ⟨hentries d (by simp), hencodes⟩
        rw [splitLeaf_left hp hpage hover]
        exact iff_of_false (splitLeafPair_allocates hpos hpair _ _ (hinner _)).ne' id

end SplitLeaf

/-! ### Insertions that make a leaf overflow -/

/-- The pages there are after an operation, whether it returns or throws. -/
def pagesAfter (x : IndexM NodeMap α) (s : DiskBspIndex NodeMap) : Nat := (stateOf (x s)).pager.count

/-- The pages of an insertion are those that the split of the leaf allocates. -/
theorem insertAt_pages {p : ParsedPage} {path : List PageId} {slot : Nat} {ent : LeafEntry}
    (hpos : 0 < s.pager.count) (hover : leafOverflow (p.leafEntries.insertIdx slot ent) = true) :
    pagesAfter (insert.insertAt p path slot ent) s =
      pagesAfter (splitLeaf { p with leafEntries := p.leafEntries.insertIdx slot ent } path) s := by
  have hsplit := keeps_grown (Mirrors.splitLeaf (grown 0)
    { p with leafEntries := p.leafEntries.insertIdx slot ent } path) s hpos
  rw [pagesAfter, pagesAfter, insert.insertAt, if_neg (by rw [hover]; decide)]
  cases hrun : splitLeaf { p with leafEntries := p.leafEntries.insertIdx slot ent } path s with
  | ok u s' =>
    rw [hrun] at hsplit
    rw [bind_ok hrun]
    exact max_eq_left hsplit
  | error e s' =>
    rw [bind_error hrun]

/-- A new key is led to a leaf that has no room for its entry. -/
structure LeafOverflows (ty : DataType) (t : BPlusTree LeafEntry H) (key : Value) (rid : UInt64)
    (s : DiskBspIndex NodeMap) (ctx : Ctx LeafEntry H 0) (l : Leaf LeafEntry) (slot : Nat) : Prop where
  stored : Stored ty t s
  hasType : key.HasType ty
  length : encodedValueSize key ≤ kMaxIndexKeyBytes
  sought : Sought t key s ctx l slot
  new : ¬ Hit l slot key
  overflows : ¬ Fits (leaf (withEntryAt slot (entryOf key rid) l))

section LeafOverflows
variable {t : BPlusTree LeafEntry H} {key : Value} {rid : UInt64} {ctx : Ctx LeafEntry H 0}
  {l : Leaf LeafEntry} {slot : Nat}

/-- There are entries then, the leaf has more than one. -/
theorem LeafOverflows.entries_ne_nil (h : LeafOverflows ty t key rid s ctx l slot) :
    t.entries ≠ [] := by
  intro hnil
  have hslot := h.sought.le
  have hl : l.entries = [] := by
    rw [← h.sought.plug, Ctx.entries_plug, entries_leaf] at hnil
    exact (List.append_eq_nil_iff.mp (List.append_eq_nil_iff.mp hnil).1).2
  rw [hl, List.length_nil, Nat.le_zero] at hslot
  apply h.overflows
  rw [withEntryAt, hl, hslot]
  exact fits_one (entryOf_encodes rid h.hasType h.length)

/-- It allocates no page just when the right sibling takes an entry. -/
theorem LeafOverflows.pages_iff (h : LeafOverflows ty t key rid s ctx l slot) :
    pagesAfter (insert key rid) s = s.pager.count ↔
      TakesRight ctx (withEntryAt slot (entryOf key rid) l) := by
  have hs : Laid ty (ctx.plug (leaf l)) s := h.sought.plug ▸ h.stored.toLaid
  have hp := hs.pend_withEntryAt slot (entryOf_encodes rid h.hasType h.length)
  have hpage : Shows { pageOf (.leaf l) with leafEntries := l.entries.insertIdx slot (entryOf key rid) }
      (.leaf (withEntryAt slot (entryOf key rid) l)) := shows_leaf rfl rfl rfl rfl
  have hover : leafOverflow (l.entries.insertIdx slot (entryOf key rid)) = true :=
    (Bool.not_eq_false _).mp h.overflows
  have hrun : insert key rid s =
      insert.insertAt (pageOf (.leaf l)) (l.id :: ctx.path) slot (entryOf key rid) s := by
    rw [insert_found h.stored h.hasType h.length h.entries_ne_nil
      (h.stored.toLaid.leaf_written h.sought.plug) h.sought.found h.sought.bound]
    exact if_neg h.new
  rw [← splitLeaf_pages ctx hp hpage h.overflows, pagesAfter, hrun]
  exact Eq.congr_left (insertAt_pages hp.count_pos hover)

end LeafOverflows

/-! ### Inner nodes that overflow -/

/-- The right sibling has room for the node's last child, and the parent for its separators. -/
def GivesLast : {H k : Nat} → Ctx LeafEntry H (k + 1) → PageId → List (BPlusTree LeafEntry k) → Prop
  | _, _, .frame pid _ left (d :: rest) _, id, cs =>
    (Fits (above id cs.dropLast) ∧ Fits (above d.rootId (cs.getLast?.toList ++ d.children))) ∧
      Fits (above pid (left ++
        [above id cs.dropLast, above d.rootId (cs.getLast?.toList ++ d.children)] ++ rest))
  | _, _, _, _, _ => False

/-- The same of the left sibling and the first child. -/
def GivesFirst : {H k : Nat} → Ctx LeafEntry H (k + 1) → PageId → List (BPlusTree LeafEntry k) → Prop
  | _, _, .frame pid _ left right _, id, cs => ∃ d ∈ left.getLast?,
    (Fits (above d.rootId (d.children ++ cs.head?.toList)) ∧ Fits (above id cs.tail)) ∧
      Fits (above pid (left.dropLast ++
        [above d.rootId (d.children ++ cs.head?.toList), above id cs.tail] ++ right))
  | _, _, .top, _, _ => False

/-- Dealt out over three nodes with a sibling, the right one if there is one, the outer two do
not fit. -/
def Refused : {H k : Nat} → Ctx LeafEntry H (k + 1) → PageId → List (BPlusTree LeafEntry k) → Prop
  | _, _, .top, _, _ => False
  | _, _, .frame _ _ _ (d :: _) _, id, cs => ¬ OuterFit (above id cs) d
  | _, _, .frame _ _ left [] _, id, cs => ∃ d ∈ left.getLast?, ¬ OuterFit d (above id cs)

/-- An inner node, in memory, that has no room for its children. -/
structure InnerOverflows (ty : DataType) (ctx : Ctx LeafEntry H (k + 1)) (id : PageId)
    (cs : List (BPlusTree LeafEntry k)) (p : ParsedPage) (s : DiskBspIndex NodeMap) : Prop where
  pending : PendingAt ty ctx (above id cs) s
  shows : Shows p (above id cs).rootRecord
  overflows : ¬ Fits (above id cs)

section InnerOverflows
variable {id : PageId} {cs : List (BPlusTree LeafEntry k)} {p : ParsedPage}

theorem splitInternalPair_pages {up : Ctx LeafEntry H (k + 2)} {pid : PageId} {ks : List LeafEntry}
    {left right : List (BPlusTree LeafEntry (k + 1))} {a b : BPlusTree LeafEntry (k + 1)}
    {r : NodeRecord LeafEntry} {pa pb : ParsedPage} {split : ParsedPage → IndexM NodeMap Unit}
    (q : ParsedPage) (i : Nat)
    (hp : Pending ty (up.plug (node pid ks (left ++ [a, b] ++ right))) r s)
    (hr : ∃ x ∈ [a, b], r = x.rootRecord)
    (ha : Heads pa a.rootId (a.children.map rootId)) (hb : Heads pb b.rootId (b.children.map rootId))
    (hsplit : ∀ x, Mirrors (grown s.pager.count) (split x) (split x)) :
    pagesAfter (splitInternalPair split pa pb q i) s = s.pager.count ↔ ¬ OuterFit a b := by
  obtain ⟨pa', pb', -, -, hrun⟩ := splitInternalPair_outer split q i hp hr ha hb
  rw [pagesAfter, hrun]
  by_cases hfits : OuterFit a b
  · rw [if_pos hfits]
    refine iff_of_false (lt_after_allocate hp.count_pos fun m => ?_).ne' fun h => h hfits
    refine .bind (Mirrors.rebuildInternalKeys _ _) fun middle => .bind (Mirrors.writePage _ _) fun _ => ?_
    refine .bind (Mirrors.writePage _ _) fun _ => .bind (Mirrors.writePage _ _) fun _ => ?_
    exact .bind (Mirrors.rebuildInternalKeys _ _) fun x => Mirrors.writeOrSplit _ hsplit x
  · rw [if_neg hfits]
    exact iff_of_true rfl hfits

theorem splitInternalHalves_allocates {split : ParsedPage → IndexM NodeMap Unit} {path : List PageId}
    (hpos : 0 < s.pager.count) (hsplit : ∀ x, Mirrors (grown s.pager.count) (split x) (split x)) :
    s.pager.count < (stateOf (splitInternalHalves split p path s)).pager.count := by
  rw [splitInternalHalves]
  apply lt_after_allocate hpos
  intro m
  refine .bind (Mirrors.rebuildInternalKeys _ _) fun x => .bind (Mirrors.rebuildInternalKeys _ _) fun y => ?_
  refine .ite (.throw _) (.bind (Mirrors.subtreeMinEntry _ _) fun e => ?_)
  exact Mirrors.insertIntoParent _ hsplit x e y path

/-- The split of an inner node allocates no page just when it is refused. -/
theorem InnerOverflows.pages_iff {ctx : Ctx LeafEntry H (k + 1)}
    (h : InnerOverflows ty ctx id cs p s) :
    pagesAfter (splitInternal (id :: ctx.path) p) s = s.pager.count ↔ Refused ctx id cs := by
  obtain ⟨hp, hshows, hover⟩ := h
  have hpos := hp.count_pos
  have hinner : ∀ path x, Mirrors (grown s.pager.count) (splitInternal path x) (splitInternal path x) :=
    Mirrors.splitInternal _
  cases ctx with
  | top =>
    have hsplit : splitInternal [id] p s = splitInternalHalves (fun _ => return) p [id] s := by
      rw [splitInternal]
      intro _ _ _ hpath
      cases hpath
    rw [Ctx.path, pagesAfter, hsplit]
    exact iff_of_false (splitInternalHalves_allocates hpos fun _ => .pure _).ne' fun h => h
  | frame pid ks left right up =>
    rw [pagesAfter]
    cases right with
    | cons d rest =>
      rw [splitInternal_right hp hshows hover]
      have hfamily : left ++ above id cs :: d :: rest = left ++ [above id cs, d] ++ rest := by simp
      rw [PendingAt, Ctx.plug, hfamily] at hp
      exact splitInternalPair_pages _ _ hp ⟨_, List.mem_cons_self, rfl⟩ hshows.heads
        (shows_pageOf d.rootRecord).heads (hinner _)
    | nil =>
      rcases List.eq_nil_or_concat left with rfl | ⟨init, d, hleft⟩
      · rw [splitInternal_alone hp hshows hover]
        refine iff_of_false (splitInternalHalves_allocates hpos (hinner _)).ne' fun h => ?_
        obtain ⟨d, hd, -⟩ := h
        cases hd
      · rw [List.concat_eq_append] at hleft
        subst hleft
        rw [splitInternal_left hp hshows hover]
        have hfamily : init ++ [d] ++ [above id cs] = init ++ [d, above id cs] ++ [] := by simp
        rw [PendingAt, Ctx.plug, hfamily] at hp
        refine (splitInternalPair_pages _ _ hp ⟨_, List.mem_cons_of_mem _ List.mem_cons_self, rfl⟩
          (shows_pageOf d.rootRecord).heads hshows.heads (hinner _)).trans ?_
        rw [Refused, List.getLast?_concat]
        simp

end InnerOverflows

/-! ### Where a sibling has room -/

/-- A leaf with a sibling that has room for an entry is relieved of it without a new page. -/
def LeafRelieved (ctx : Ctx LeafEntry H 0) (l : Leaf LeafEntry) (key : Value) (rid : UInt64)
    (s : DiskBspIndex NodeMap) : Prop :=
  GivesRight ctx l ∨ GivesLeft ctx l → pagesAfter (insert key rid) s = s.pager.count

/-- And an inner node with a sibling that has room for a child. -/
def InnerRelieved (ctx : Ctx LeafEntry H (k + 1)) (id : PageId) (cs : List (BPlusTree LeafEntry k))
    (p : ParsedPage) (s : DiskBspIndex NodeMap) : Prop :=
  GivesLast ctx id cs ∨ GivesFirst ctx id cs →
    pagesAfter (splitInternal (id :: ctx.path) p) s = s.pager.count

/-- A leaf is relieved where the right sibling takes an entry if the left one has room for one;
an inner node, with a sibling that has room for a child, where its split is refused. -/
theorem relieved_iff (ty : DataType) :
    (∀ (H : Nat) (t : BPlusTree LeafEntry H) (key : Value) (rid : UInt64) (s : DiskBspIndex NodeMap)
      (ctx : Ctx LeafEntry H 0) (l : Leaf LeafEntry) (slot : Nat),
      LeafOverflows ty t key rid s ctx l slot →
        (LeafRelieved ctx (withEntryAt slot (entryOf key rid) l) key rid s ↔
          (GivesLeft ctx (withEntryAt slot (entryOf key rid) l) →
            TakesRight ctx (withEntryAt slot (entryOf key rid) l)))) ∧
    ∀ (H k : Nat) (ctx : Ctx LeafEntry H (k + 1)) (id : PageId) (cs : List (BPlusTree LeafEntry k))
      (p : ParsedPage) (s : DiskBspIndex NodeMap), InnerOverflows ty ctx id cs p s →
        (InnerRelieved ctx id cs p s ↔
          (GivesLast ctx id cs ∨ GivesFirst ctx id cs → Refused ctx id cs)) := by
  constructor
  · intro H t key rid s ctx l slot h
    rw [LeafRelieved, h.pages_iff]
    constructor
    · exact fun hrelieved hleft => hrelieved (.inr hleft)
    · intro htakes hgives
      exact hgives.elim GivesRight.takesRight htakes
  · intro H k ctx id cs p s h
    rw [InnerRelieved, h.pages_iff]

/-! ### Two leaves of long keys -/

/-- The index of a tree whose nodes these are, each in its page. -/
def holding (t : BPlusTree LeafEntry H) (first : PageId) (rs : List (NodeRecord LeafEntry)) :
    DiskBspIndex NodeMap :=
  putNodes { pager := ⟨fun _ => none, 1⟩, rootPage := t.rootId, firstLeafPage := first
             size := t.entries.length } rs

theorem holding_written {t : BPlusTree LeafEntry H} {first : PageId}
    {rs : List (NodeRecord LeafEntry)} (hnodup : (rs.map NodeRecord.id).Nodup)
    (hpos : ∀ r ∈ rs, 0 < r.id) (hfits : ∀ r ∈ rs, NodeMap.overflows (pageOf r) = false)
    (hencodes : ∀ r ∈ rs, ∀ e ∈ r.keys, e.Encodes ty) :
    ∀ r ∈ rs, Written ty (holding t first rs).pager r := by
  intro r hr
  refine written_putNodes_mem hr (fun x hx hid => ?_) (hpos r hr) (hfits r hr) (hencodes r hr)
  exact List.inj_on_of_nodup_map hnodup hx hr hid

/-- The entries of `n` long keys from the `i`-th on. -/
def longRun (i n : Nat) : List LeafEntry := (List.range n).map fun d => entryOf (longKey (i + d)) 0

theorem longRun_encodes (i n : Nat) : ∀ e ∈ longRun i n, e.Encodes .str := by
  intro e he
  obtain ⟨d, -, rfl⟩ := List.mem_map.mp he
  exact entryOf_encodes 0 ⟨rfl, rfl⟩ (longKey_size _)

def firstLeaf (m : Nat) : Leaf LeafEntry := { id := 1, next := 2, entries := longRun 1 m }

def secondLeaf (m n : Nat) : Leaf LeafEntry := { id := 2, next := 0, entries := longRun (m + 1) n }

/-- Two leaves of long keys, `m` in the first one and `n` in the second. -/
def twoLeaves (m n : Nat) : BPlusTree LeafEntry 1 := above 3 (leavesAt [firstLeaf m, secondLeaf m n])

def twoLeavesIndex (m n : Nat) : DiskBspIndex NodeMap :=
  holding (twoLeaves m n) 1 [.leaf (firstLeaf m), .leaf (secondLeaf m n), (twoLeaves m n).rootRecord]

theorem jointed_leaves {id : PageId} {ls : List (Leaf LeafEntry)} (hne : leavesAt ls ≠ []) :
    Jointed (above id (leavesAt ls)) := by
  refine (jointed_above hne).mpr fun c hc => ?_
  obtain ⟨l, -, rfl⟩ := List.mem_map.mp hc
  trivial

theorem mem_records_leaves {id : PageId} {ls : List (Leaf LeafEntry)} {r : NodeRecord LeafEntry}
    (h : r ∈ (above id (leavesAt ls)).records) :
    r = (above id (leavesAt ls)).rootRecord ∨ ∃ l ∈ ls, r = .leaf l := by
  rw [records_node, recordsOf_leaves] at h
  rcases Multiset.mem_cons.mp h with rfl | h
  · exact .inl rfl
  · obtain ⟨l, hl, rfl⟩ := List.mem_map.mp h
    exact .inr ⟨l, hl, rfl⟩

theorem longRun_ne_nil {i n : Nat} (hn : 0 < n) : longRun i n ≠ [] := by
  intro hnil
  have hlength := congrArg List.length hnil
  rw [longRun, List.length_map, List.length_range] at hlength
  exact hn.ne' hlength

theorem longRun_fits {i n : Nat} (hn : n ≤ 7) : leafOverflow (longRun i n) = false := by
  have hpage : kPageSize = 4096 := rfl
  have hle := leafPayloadBytes_le (longRun_encodes i n)
  rw [longRun, List.length_map, List.length_range] at hle
  refine decide_eq_false (Nat.not_lt.mpr ?_)
  rw [longRun]
  omega

theorem twoLeaves_stored {m n : Nat} (hm : 0 < m ∧ m ≤ 7) (hn : 0 < n ∧ n ≤ 7) :
    Stored .str (twoLeaves m n) (twoLeavesIndex m n) := by
  have hfirst : (firstLeaf m).entries ≠ [] := longRun_ne_nil hm.1
  have hsecond : (secondLeaf m n).entries ≠ [] := longRun_ne_nil hn.1
  have hfilled : Filled (twoLeaves m n) := by
    rw [twoLeaves, filled_node]
    simp only [leavesAt, List.map_cons, List.map_nil, List.forall_mem_cons, Filled, leaves_leaf]
    exact ⟨⟨hfirst, by simp⟩, ⟨hsecond, by simp⟩, by simp⟩
  have hkey : (leaf (secondLeaf m n)).minEntry ∈ longRun (m + 1) n := by
    have hmem := minEntry_mem (t := leaf (secondLeaf m n)) (by rwa [entries_leaf])
    rwa [entries_leaf] at hmem
  have hroot : (twoLeaves m n).keys = [(leaf (secondLeaf m n)).minEntry] := rfl
  have hwritten : ∀ r ∈ [.leaf (firstLeaf m), .leaf (secondLeaf m n), (twoLeaves m n).rootRecord],
      Written .str (twoLeavesIndex m n).pager r := by
    apply holding_written
    · exact (by decide : [1, 2, 3].Nodup)
    · simp only [List.forall_mem_cons]
      exact ⟨Nat.one_pos, Nat.two_pos, Nat.succ_pos 2, by simp⟩
    · simp only [List.forall_mem_cons]
      refine ⟨longRun_fits hm.2, longRun_fits hn.2, ?_, by simp⟩
      exact fits_two (longRun_encodes _ _ _ hkey).keyLen_le
    · simp only [List.forall_mem_cons]
      refine ⟨longRun_encodes _ _, longRun_encodes _ _, fun e he => ?_, by simp⟩
      rw [List.mem_singleton.mp he]
      exact longRun_encodes _ _ _ hkey
  refine ⟨⟨⟨?_, ?_, fun _ => hfilled, fun hnil => ?_, ⟨rfl, rfl, rfl⟩⟩, ?_, fun r hr => hwritten r ?_⟩, ?_⟩
  · rw [twoLeaves, ids_node, idsOf_leaves]
    exact (by decide : (3 ::ₘ (([1, 2] : List Nat) : Multiset Nat)).Nodup)
  · exact jointed_leaves (List.cons_ne_nil _ _)
  · rw [twoLeaves, entries_node, entriesOf_leaves] at hnil
    exact absurd (List.append_eq_nil_iff.mp hnil).1 hfirst
  · exact putNodes_rootPage _
  · rcases mem_records_leaves hr with rfl | ⟨l, hl, rfl⟩
    · exact List.mem_cons_of_mem _ (List.mem_cons_of_mem _ List.mem_cons_self)
    · exact List.mem_append_left [(twoLeaves m n).rootRecord] (List.mem_map_of_mem hl)
  · exact putNodes_size _

/-- A key is led to the first leaf or to the second one. -/
theorem twoLeaves_sought {m n : Nat} {key : Value} {ctx : Ctx LeafEntry 1 0} {l : Leaf LeafEntry}
    (hplug : ctx.plug (leaf l) = twoLeaves m n) (hchosen : ctx.Chosen (codeSlot key)) :
    (codeSlot key (twoLeaves m n).keys = 0 ∧ l = firstLeaf m ∧
        ctx = .frame 3 (twoLeaves m n).keys [] [leaf (secondLeaf m n)] .top) ∨
      (codeSlot key (twoLeaves m n).keys = 1 ∧ l = secondLeaf m n ∧
        ctx = .frame 3 (twoLeaves m n).keys [leaf (firstLeaf m)] [] .top) := by
  cases ctx with
  | frame pid ks left right up =>
    have htop := up.eq_top
    subst htop
    rw [Ctx.Chosen] at hchosen
    rw [Ctx.plug, Ctx.plug] at hplug
    have hid : pid = 3 := congrArg rootId hplug
    have hks : ks = (twoLeaves m n).keys := congrArg BPlusTree.keys hplug
    have hcs : left ++ leaf l :: right = leavesAt [firstLeaf m, secondLeaf m n] :=
      congrArg BPlusTree.children hplug
    subst hid hks
    rcases left with _ | ⟨a, _ | ⟨b, left⟩⟩
    · obtain ⟨hl, hright⟩ := List.cons.inj hcs
      rw [hright]
      exact .inl ⟨hchosen.1.symm, hl, rfl⟩
    · obtain ⟨ha, hrest⟩ := List.cons.inj hcs
      obtain ⟨hl, hright⟩ := List.cons.inj hrest
      rw [ha, hright]
      exact .inr ⟨hchosen.1.symm, hl, rfl⟩
    · have hlength := congrArg List.length hcs
      simp at hlength

/-! ### Nine leaves below one node, and one below the next -/

def tenLeaf (i : Nat) : Leaf LeafEntry :=
  { id := i + 1, next := if i < 9 then i + 2 else 0, entries := longRun i 1 }

def nineOfTen : List (BPlusTree LeafEntry 0) := leavesAt ((List.range 9).map tenLeaf)

/-- The node over the tenth leaf, in page 12; page 13 is the root's. -/
def besideOne : Ctx LeafEntry 2 1 :=
  .frame 13 (longRun 9 1) [] [above 12 (leavesAt [tenLeaf 9])] .top

def tenLeaves : BPlusTree LeafEntry 2 :=
  node 13 (longRun 9 1) [above 11 nineOfTen, above 12 (leavesAt [tenLeaf 9])]

/-- All pages but the overflowing node's, which is page 11. -/
def tenLeavesIndex : DiskBspIndex NodeMap :=
  holding tenLeaves 1 (((List.range 10).map fun i => .leaf (tenLeaf i)) ++
    [(above 12 (leavesAt [tenLeaf 9])).rootRecord, tenLeaves.rootRecord])

theorem besideOne_plug : besideOne.plug (above 11 nineOfTen) = tenLeaves := by
  rw [besideOne, Ctx.plug, Ctx.plug, List.nil_append]
  rfl

theorem tenLeaves_written : ∀ r ∈ ((List.range 10).map fun i => .leaf (tenLeaf i)) ++
    [(above 12 (leavesAt [tenLeaf 9])).rootRecord, tenLeaves.rootRecord],
      Written .str tenLeavesIndex.pager r := by
  apply holding_written
  · decide +kernel
  · decide +kernel
  · decide +kernel
  · refine List.forall_mem_append.mpr ⟨fun r hr => ?_, ?_⟩
    · obtain ⟨i, -, rfl⟩ := List.mem_map.mp hr
      exact longRun_encodes _ _
    · simp only [List.forall_mem_cons]
      exact ⟨fun e he => absurd he List.not_mem_nil, longRun_encodes 9 1, by simp⟩

theorem tenLeaves_pending :
    Pending .str tenLeaves (above 11 nineOfTen).rootRecord tenLeavesIndex where
  nodup := by decide +kernel
  jointed := by
    refine jointed_node.mpr ⟨rfl, ?_⟩
    simp only [List.forall_mem_cons]
    exact ⟨jointed_leaves (by decide), jointed_leaves (by decide), by simp⟩
  filled l hl _ := by
    obtain ⟨i, -, rfl⟩ := List.mem_map.mp (show l ∈ (List.range 10).map tenLeaf from hl)
    exact longRun_ne_nil Nat.one_pos
  linked := ⟨rfl, rfl, rfl, rfl, rfl, rfl, rfl, rfl, rfl, rfl, rfl⟩
  root := rfl
  mem := by
    rw [← besideOne_plug]
    exact Ctx.records_hole (rootRecord_mem _)
  pos := by decide
  lt := by decide +kernel
  encodes := longRun_encodes 1 8
  written r hr hid := by
    apply tenLeaves_written r
    have hleaf : ∀ i < 10, .leaf (tenLeaf i) ∈ (List.range 10).map fun i => NodeRecord.leaf (tenLeaf i) :=
      fun i hi => List.mem_map.mpr ⟨i, List.mem_range.mpr hi, rfl⟩
    rcases Multiset.mem_cons.mp hr with rfl | hr
    · exact List.mem_append_right _ (List.mem_cons_of_mem _ List.mem_cons_self)
    obtain ⟨c, hc, hr⟩ := mem_recordsOf.mp hr
    rcases List.mem_cons.mp hc with rfl | hc
    · rcases mem_records_leaves hr with rfl | ⟨l, hl, rfl⟩
      · exact absurd rfl hid
      · obtain ⟨i, hi, rfl⟩ := List.mem_map.mp hl
        exact List.mem_append_left _ (hleaf i ((List.mem_range.mp hi).trans (by decide)))
    · rw [List.mem_singleton.mp hc] at hr
      rcases mem_records_leaves hr with rfl | ⟨l, hl, rfl⟩
      · exact List.mem_append_right _ List.mem_cons_self
      · rw [List.mem_singleton.mp hl]
        exact List.mem_append_left _ (hleaf 9 (by decide))

theorem besideOne_overflows : InnerOverflows .str besideOne 11 nineOfTen
    (pageOf (above 11 nineOfTen).rootRecord) tenLeavesIndex where
  pending := by
    rw [PendingAt, besideOne_plug]
    exact tenLeaves_pending
  shows := shows_pageOf _
  overflows := by decide +kernel

/-- The left one of two leaves has room for an entry of the right one, but a page is allocated
for the new entry. -/
theorem not_relieved : ¬ ∀ ty : DataType,
    (∀ (H : Nat) (t : BPlusTree LeafEntry H) (key : Value) (rid : UInt64) (s : DiskBspIndex NodeMap)
      (ctx : Ctx LeafEntry H 0) (l : Leaf LeafEntry) (slot : Nat),
      LeafOverflows ty t key rid s ctx l slot →
        LeafRelieved ctx (withEntryAt slot (entryOf key rid) l) key rid s) ∧
    ∀ (H k : Nat) (ctx : Ctx LeafEntry H (k + 1)) (id : PageId) (cs : List (BPlusTree LeafEntry k))
      (p : ParsedPage) (s : DiskBspIndex NodeMap), InnerOverflows ty ctx id cs p s →
        InnerRelieved ctx id cs p s := by
  intro hall
  have hs := twoLeaves_stored (m := 6) (n := 7) (by decide) (by decide)
  obtain ⟨ctx, l, slot, hsought⟩ := hs.sought (show (longKey 14).HasType .str from ⟨rfl, rfl⟩)
  have hslot : codeSlot (longKey 14) (twoLeaves 6 7).keys = 1 := by decide +kernel
  rcases twoLeaves_sought hsought.plug hsought.chosen with ⟨hzero, -⟩ | ⟨-, hl, hctx⟩
  · rw [hslot] at hzero
    cases hzero
  subst hl hctx
  have hbound : lowerBoundSlot (pageOf (.leaf (secondLeaf 6 7))) (longKey 14) = .ok 7 := by decide +kernel
  have hseven := Except.ok.inj (hsought.bound.symm.trans hbound)
  subst hseven
  have hnew : ¬ Hit (secondLeaf 6 7) 7 (longKey 14) := by
    intro hhit
    obtain ⟨e, he, -⟩ := hhit
    cases he
  have hrelieved := (hall .str).1 1 _ (longKey 14) 0 _ _ _ _
    ⟨hs, ⟨rfl, rfl⟩, longKey_size 14, hsought, hnew, by decide +kernel⟩
    (.inr ⟨leaf (firstLeaf 6), rfl, ⟨by decide +kernel, by decide +kernel⟩, by decide +kernel⟩)
  have hpages : pagesAfter (insert (longKey 14) 0) (twoLeavesIndex 6 7) ≠
      (twoLeavesIndex 6 7).pager.count := by decide +kernel
  exact hpages hrelieved

/-- Seven long keys and six: the first leaf gives its last to the second. And ten leaves below
two inner nodes: a page is allocated though the second one has room. -/
theorem relieved_iff_longKeys :
    (∃ ctx l slot, LeafOverflows .str (twoLeaves 7 6) (longKey 0) 0 (twoLeavesIndex 7 6) ctx l slot ∧
      (LeafRelieved ctx (withEntryAt slot (entryOf (longKey 0) 0) l) (longKey 0) 0 (twoLeavesIndex 7 6) ↔
        (GivesLeft ctx (withEntryAt slot (entryOf (longKey 0) 0) l) →
          TakesRight ctx (withEntryAt slot (entryOf (longKey 0) 0) l)))) ∧
    (InnerRelieved besideOne 11 nineOfTen (pageOf (above 11 nineOfTen).rootRecord) tenLeavesIndex ↔
      (GivesLast besideOne 11 nineOfTen ∨ GivesFirst besideOne 11 nineOfTen →
        Refused besideOne 11 nineOfTen)) := by
  refine ⟨?_, (relieved_iff .str).2 _ _ _ _ _ _ _ besideOne_overflows⟩
  have hs := twoLeaves_stored (m := 7) (n := 6) (by decide) (by decide)
  obtain ⟨ctx, l, slot, hsought⟩ := hs.sought (show (longKey 0).HasType .str from ⟨rfl, rfl⟩)
  have hoverflows : LeafOverflows .str (twoLeaves 7 6) (longKey 0) 0 (twoLeavesIndex 7 6) ctx l slot := by
    have hslot : codeSlot (longKey 0) (twoLeaves 7 6).keys = 0 := by decide +kernel
    rcases twoLeaves_sought hsought.plug hsought.chosen with ⟨-, hl, hctx⟩ | ⟨hone, -⟩
    swap
    · rw [hslot] at hone
      cases hone
    subst hl hctx
    have hbound : lowerBoundSlot (pageOf (.leaf (firstLeaf 7))) (longKey 0) = .ok 0 := by decide +kernel
    have hzero := Except.ok.inj (hsought.bound.symm.trans hbound)
    subst hzero
    have hnew : ¬ Hit (firstLeaf 7) 0 (longKey 0) := by
      intro hhit
      obtain ⟨e, he, hvalue⟩ := hhit
      cases he
      rw [entryOf_value 0 (longKey_size _)] at hvalue
      exact absurd hvalue.symm (longKey_lt Nat.one_pos (by decide)).ne
    exact ⟨hs, ⟨rfl, rfl⟩, longKey_size 0, hsought, hnew, by decide +kernel⟩
  exact ⟨ctx, l, slot, hoverflows, (relieved_iff .str).1 _ _ _ _ _ _ _ _ hoverflows⟩

end CwDb.Storage.DiskBspIndex
