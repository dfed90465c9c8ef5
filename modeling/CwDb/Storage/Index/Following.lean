import CwDb.Storage.Index.Build
import CwDb.Storage.IndexCalls
import CwDb.Foundation.Following

/-! The index over two stores.

The code of the index knows its store only by its operations. So where one store does what
another does until it has lost something (`Following`), the index over it does what the index
over the other does: every operation, in the order of the code. -/
namespace CwDb.Storage
open Foundation

/-- A store that does what another does, as long as it has lost nothing. -/
structure Following (σ τ : Type) [NodeStore σ] [NodeStore τ] where
  Lost : σ → Prop
  Rel : σ → τ → Prop
  nonempty : Nonempty τ
  readPage : ∀ id, Follows Lost Rel (NodeStore.readPage id) (NodeStore.readPage id)
  writePage : ∀ p, Follows Lost Rel (NodeStore.writePage p) (NodeStore.writePage p)
  allocateNodePage : Follows Lost Rel NodeStore.allocateNodePage NodeStore.allocateNodePage
  reservePage : Follows Lost Rel NodeStore.reservePage NodeStore.reservePage
  writeSuperblock : ∀ root first size, Follows Lost Rel (NodeStore.writeSuperblock root first size)
    (NodeStore.writeSuperblock root first size)
  flush : Follows Lost Rel NodeStore.flush NodeStore.flush
  pageCount : ∀ s t, Rel s t → NodeStore.pageCount s = NodeStore.pageCount t

namespace DiskBspIndex

variable {σ τ α β : Type} [NodeStore σ] [NodeStore τ]

/-- Related stores, and the same three numbers. -/
structure RelOn (F : Following σ τ) (s : DiskBspIndex σ) (t : DiskBspIndex τ) : Prop where
  pager : F.Rel s.pager t.pager
  rootPage : s.rootPage = t.rootPage
  firstLeafPage : s.firstLeafPage = t.firstLeafPage
  size : s.size = t.size

/-- Code of the index that follows the same code over the other store. -/
abbrev Mirrors (F : Following σ τ) (x : IndexM σ α) (y : IndexM τ α) : Prop :=
  Follows (fun s : DiskBspIndex σ => F.Lost s.pager) (RelOn F) x y

namespace Mirrors
variable {F : Following σ τ}

theorem onPager {x : EStateM Exn σ α} {y : EStateM Exn τ α} (h : Follows F.Lost F.Rel x y) :
    Mirrors F (onPager x) (onPager y) := by
  constructor
  · intro s hs
    have hlost := h.keeps s.pager hs
    unfold DiskBspIndex.onPager
    cases hrun : x s.pager with
    | ok a u =>
      rw [hrun] at hlost
      exact hlost
    | error e u =>
      rw [hrun] at hlost
      exact hlost
  · intro s t hst
    unfold DiskBspIndex.onPager
    rcases h.agree _ _ hst.pager with hlost | hagree
    · left
      cases hrun : x s.pager with
      | ok a u =>
        rw [hrun] at hlost
        exact hlost
      | error e u =>
        rw [hrun] at hlost
        exact hlost
    · right
      cases hrun : y t.pager with
      | ok a u =>
        rw [hrun] at hagree
        obtain ⟨s', hs', hrel⟩ := hagree.of_ok
        rw [hs']
        exact .ok a ⟨hrel, hst.rootPage, hst.firstLeafPage, hst.size⟩
      | error e u =>
        rw [hrun] at hagree
        obtain ⟨s', hs', hrel⟩ := hagree.of_error
        rw [hs']
        exact .error e ⟨hrel, hst.rootPage, hst.firstLeafPage, hst.size⟩

/-- What is read of the index's own numbers is the same on both sides. -/
theorem get {f : DiskBspIndex σ → IndexM σ α} {g : DiskBspIndex τ → IndexM τ α}
    (h : ∀ s t, s.rootPage = t.rootPage → s.firstLeafPage = t.firstLeafPage → s.size = t.size →
      Mirrors F (f s) (g t)) : Mirrors F (get >>= f) (get >>= g) := by
  constructor
  · intro s hs
    obtain ⟨pager⟩ := F.nonempty
    exact (h s ⟨pager, s.rootPage, s.firstLeafPage, s.size⟩ rfl rfl rfl).keeps s hs
  · intro s t hst
    exact (h s t hst.rootPage hst.firstLeafPage hst.size).agree s t hst

/-- A change of the three numbers. -/
theorem change {f : DiskBspIndex σ → DiskBspIndex σ} {g : DiskBspIndex τ → DiskBspIndex τ}
    (hpager : ∀ s, (f s).pager = s.pager) (h : ∀ s t, RelOn F s t → RelOn F (f s) (g t)) :
    Mirrors F (modify f) (modify g) :=
  Follows.modify (fun s hs => (hpager s).symm ▸ hs) h

variable (F)

theorem readPage (id : PageId) : Mirrors F (readPage id) (readPage id) := .onPager (F.readPage id)

theorem writePage (p : ParsedPage) : Mirrors F (writePage p) (writePage p) :=
  .onPager (F.writePage p)

theorem allocateNodePage : Mirrors F allocateNodePage allocateNodePage :=
  .onPager F.allocateNodePage

/-- And so is the number of pages. -/
theorem counting {f : Nat → IndexM σ α} {g : Nat → IndexM τ α} (h : ∀ n, Mirrors F (f n) (g n)) :
    Mirrors F (MonadState.get >>= fun s => f (NodeStore.pageCount s.pager))
      (MonadState.get >>= fun t => g (NodeStore.pageCount t.pager)) := by
  refine ⟨fun s hs => (h _).keeps s hs, fun s t hst => ?_⟩
  rw [get_bind_apply, get_bind_apply, F.pageCount _ _ hst.pager]
  exact (h _).agree s t hst

theorem writeSuperblock : Mirrors F writeSuperblock writeSuperblock := by
  refine get fun s t hroot hfirst hsize => ?_
  rw [hroot, hfirst, hsize]
  exact .onPager (F.writeSuperblock _ _ _)

theorem descentFuel : Mirrors F descentFuel descentFuel := counting F fun n => .pure (n + 1)

/-! ### Searching -/

theorem findLeafLoop (key : Value) (fuel : Nat) (page : PageId) (path : List PageId) :
    Mirrors F (findLeafLoop key fuel page path) (findLeafLoop key fuel page path) := by
  induction fuel generalizing page path with
  | zero => exact .throw _
  | succ fuel ih =>
    refine .bind (readPage F page) fun p => .ite (.pure _) (.bind (.fromExcept _) fun child => ?_)
    cases p.children[child]? with
    | none => exact .throw _
    | some next => exact ih next _

theorem findLeaf (key : Value) : Mirrors F (findLeaf key) (findLeaf key) := by
  refine get fun s t hroot _ _ => .bind (descentFuel F) fun fuel => ?_
  rw [hroot]
  exact findLeafLoop F key fuel _ _

theorem subtreeMinLoop (fuel : Nat) (page : PageId) :
    Mirrors F (subtreeMinLoop fuel page) (subtreeMinLoop fuel page) := by
  induction fuel generalizing page with
  | zero => exact .throw _
  | succ fuel ih =>
    refine .bind (readPage F page) fun p => .ite ?_ ?_
    · cases p.leafEntries with
      | nil => exact .throw _
      | cons e es => exact .pure e
    · cases p.children with
      | nil => exact .throw _
      | cons c cs => exact ih c

theorem subtreeMinEntry (page : PageId) : Mirrors F (subtreeMinEntry page) (subtreeMinEntry page) :=
  .bind (descentFuel F) fun fuel => subtreeMinLoop F fuel page

theorem leftmostLeafLoop (fuel : Nat) (page : PageId) :
    Mirrors F (leftmostLeafLoop fuel page) (leftmostLeafLoop fuel page) := by
  induction fuel generalizing page with
  | zero => exact .throw _
  | succ fuel ih =>
    refine .bind (readPage F page) fun p => .ite (.pure _) ?_
    cases p.children with
    | nil => exact .throw _
    | cons c cs => exact ih c

theorem leftmostLeaf (page : PageId) : Mirrors F (leftmostLeaf page) (leftmostLeaf page) :=
  .bind (descentFuel F) fun fuel => leftmostLeafLoop F fuel page

theorem iteratorAt (page : PageId) (slot : Nat) : Mirrors F (iteratorAt page slot) (iteratorAt page slot) :=
  .bind (readPage F page) fun _ => .fromExcept _

theorem next (it : ConstIterator) : Mirrors F it.next it.next := by
  unfold ConstIterator.next
  refine .ite (.pure _) (.bind (readPage F it.page) fun p => .ite (.fromExcept _) ?_)
  exact .ite (.pure _) (iteratorAt F p.nextLeaf 0)

theorem leafFind (page : PageId) (key : Value) (only : Bool) :
    Mirrors F (leafFind page key only) (leafFind page key only) := by
  refine .bind (readPage F page) fun p => .bind (.fromExcept _) fun slot => ?_
  cases p.leafEntries[slot]? with
  | none => exact .ite (.pure _) (.ite (iteratorAt F p.nextLeaf 0) (.pure _))
  | some e =>
    refine .bind (.fromExcept _) fun c => .ite (iteratorAt F page slot) ?_
    exact .ite (iteratorAt F page slot) (.ite (.pure _) (iteratorAt F page slot))

theorem leafLower (page : PageId) (key : Value) :
    Mirrors F (leafLower page key) (leafLower page key) := by
  refine .bind (readPage F page) fun p => .bind (.fromExcept _) fun slot => ?_
  exact .ite (iteratorAt F page slot) (.ite (iteratorAt F p.nextLeaf 0) (.pure _))

theorem find (key : Value) : Mirrors F (find key) (find key) :=
  .bind (findLeaf F key) fun r => leafFind F r.1.pageId key true

theorem lowerBound (key : Value) : Mirrors F (lowerBound key) (lowerBound key) :=
  .bind (findLeaf F key) fun r => leafLower F r.1.pageId key

theorem upperBound (key : Value) : Mirrors F (upperBound key) (upperBound key) := by
  refine .bind (findLeaf F key) fun r => .bind (.fromExcept _) fun slot => ?_
  exact .ite (iteratorAt F _ slot) (.ite (iteratorAt F _ 0) (.pure _))

theorem begin : Mirrors F begin begin := by
  refine get fun s t _ hfirst hsize => ?_
  rw [hsize, hfirst]
  exact .ite (.pure _) (iteratorAt F _ 0)

theorem scanLoop (fuel : Nat) (it : ConstIterator) :
    Mirrors F (scanLoop fuel it) (scanLoop fuel it) := by
  induction fuel generalizing it with
  | zero => exact .throw _
  | succ fuel ih =>
    exact .ite (.pure []) (.bind (next F it) fun it => .bind (ih it) fun rest => .pure _)

theorem scan : Mirrors F scan scan :=
  .bind (begin F) fun it => counting F fun n => scanLoop F ((n + 1) * kPageSize) it

/-! ### Inserting -/

theorem subtreeMins (pages : List PageId) : Mirrors F (subtreeMins pages) (subtreeMins pages) := by
  induction pages with
  | nil => exact .pure []
  | cons c cs ih => exact .bind (subtreeMinEntry F c) fun e => .bind ih fun es => .pure (e :: es)

theorem rebuildInternalKeys (node : ParsedPage) :
    Mirrors F (rebuildInternalKeys node) (rebuildInternalKeys node) := by
  unfold DiskBspIndex.rebuildInternalKeys
  refine .ite (.throw _) ?_
  cases node.children with
  | nil => exact .pure _
  | cons c rest => exact .bind (subtreeMins F rest) fun keys => .pure _

theorem propagateLoop (page : PageId) (min : LeafEntry) (path : List PageId) :
    Mirrors F (propagateLoop page min path) (propagateLoop page min path) := by
  induction path generalizing page min with
  | nil => exact .pure _
  | cons parentId above ih =>
    refine .bind (readPage F parentId) fun parent => .ite (.throw _) ?_
    cases parent.children.idxOf? page with
    | none => exact .pure _
    | some i => exact .ite (writePage F _) (.bind (subtreeMinEntry F _) fun min => ih _ min)

theorem propagateSubtreeMinChange (page : PageId) (path : List PageId) :
    Mirrors F (propagateSubtreeMinChange page path) (propagateSubtreeMinChange page path) := by
  unfold DiskBspIndex.propagateSubtreeMinChange
  rcases path with _ | ⟨cur, _ | ⟨parentId, above⟩⟩
  · exact .pure _
  · exact .pure _
  · exact .ite (.pure _) (.bind (subtreeMinEntry F page) fun min => propagateLoop F page min _)

section Splitting
variable {split : ParsedPage → IndexM σ Unit} {split' : ParsedPage → IndexM τ Unit}
  (hsplit : ∀ p, Mirrors F (split p) (split' p))
include hsplit

/-- The end of a split: the parent is written, or split in turn. -/
theorem writeOrSplit (parent : ParsedPage) :
    Mirrors F (if (!innerOverflow parent.innerKeys parent.children) = true then
        DiskBspIndex.writePage parent else split parent)
      (if (!innerOverflow parent.innerKeys parent.children) = true then
        DiskBspIndex.writePage parent else split' parent) :=
  .ite (writePage F parent) (hsplit parent)

theorem insertIntoParent (left : ParsedPage) (separator : LeafEntry) (right : ParsedPage)
    (path : List PageId) : Mirrors F (insertIntoParent split left separator right path)
      (insertIntoParent split' left separator right path) := by
  unfold DiskBspIndex.insertIntoParent
  cases path with
  | nil => exact .throw _
  | cons cur parentPath =>
    refine .ite (.throw _) (.bind (writePage F left) fun _ => .bind (writePage F right) fun _ => ?_)
    cases parentPath with
    | nil =>
      refine .bind (allocateNodePage F) fun root => .bind (writePage F _) fun _ => ?_
      exact change (fun _ => rfl) fun s t h => ⟨h.pager, rfl, h.firstLeafPage, h.size⟩
    | cons parentId above =>
      refine .bind (readPage F parentId) fun parent => .ite (.throw _) ?_
      cases parent.children.idxOf? left.pageId with
      | none => exact .throw _
      | some i => exact .bind (rebuildInternalKeys F _) fun parent => writeOrSplit F hsplit parent

theorem splitLeafPair (left right parent : ParsedPage) (i : Nat) :
    Mirrors F (splitLeafPair split left right parent i) (splitLeafPair split' left right parent i) := by
  unfold DiskBspIndex.splitLeafPair
  refine .bind (.fromExcept _) fun items => .bind (allocateNodePage F) fun middle => ?_
  refine .ite (.throw _) (.bind (writePage F _) fun _ => .bind (writePage F _) fun _ => ?_)
  refine .bind (writePage F _) fun _ => .bind (rebuildInternalKeys F _) fun parent => ?_
  exact writeOrSplit F hsplit parent

theorem splitLeafHalves (leaf : ParsedPage) (path : List PageId) :
    Mirrors F (splitLeafHalves split leaf path) (splitLeafHalves split' leaf path) := by
  unfold DiskBspIndex.splitLeafHalves
  refine .bind (allocateNodePage F) fun right => ?_
  dsimp only
  cases leaf.leafEntries.drop (leaf.leafEntries.length / 2) with
  | nil => exact .throw _
  | cons e es => exact insertIntoParent F hsplit _ e _ path

end Splitting

theorem tryGiveToRightLeaf (leaf parent : ParsedPage) (i : Nat) :
    Mirrors F (tryGiveToRightLeaf leaf parent i) (tryGiveToRightLeaf leaf parent i) := by
  unfold DiskBspIndex.tryGiveToRightLeaf
  refine .ite (.pure _) (.bind (readPage F _) fun right => .ite (.pure _) ?_)
  cases leaf.leafEntries.getLast? with
  | none => exact .pure _
  | some moved =>
    refine .ite (.pure _) (.ite (.pure _) ?_)
    refine .bind (writePage F _) fun _ => .bind (writePage F _) fun _ => ?_
    exact .bind (rebuildInternalKeys F parent) fun parent => .bind (writePage F parent) fun _ => .pure _

theorem tryGiveToLeftLeaf (leaf parent : ParsedPage) (i : Nat) :
    Mirrors F (tryGiveToLeftLeaf leaf parent i) (tryGiveToLeftLeaf leaf parent i) := by
  unfold DiskBspIndex.tryGiveToLeftLeaf
  refine .ite (.pure _) (.bind (readPage F _) fun left => .ite (.pure _) ?_)
  cases left.leafEntries.getLast? with
  | none => exact .pure _
  | some moved =>
    refine .ite (.pure _) (.ite (.pure _) ?_)
    refine .bind (writePage F _) fun _ => .bind (writePage F _) fun _ => ?_
    exact .bind (rebuildInternalKeys F parent) fun parent => .bind (writePage F parent) fun _ => .pure _

section SplittingInner
variable {split : ParsedPage → IndexM σ Unit} {split' : ParsedPage → IndexM τ Unit}
  (hsplit : ∀ p, Mirrors F (split p) (split' p))
include hsplit

theorem splitInternalPair (left right parent : ParsedPage) (i : Nat) :
    Mirrors F (splitInternalPair split left right parent i)
      (splitInternalPair split' left right parent i) := by
  unfold DiskBspIndex.splitInternalPair
  refine .bind (rebuildInternalKeys F _) fun left => .bind (rebuildInternalKeys F _) fun right => ?_
  refine .ite (.throw _) (.bind (allocateNodePage F) fun middle => ?_)
  refine .bind (rebuildInternalKeys F _) fun middle => .bind (writePage F _) fun _ => ?_
  refine .bind (writePage F _) fun _ => .bind (writePage F _) fun _ => ?_
  exact .bind (rebuildInternalKeys F _) fun parent => writeOrSplit F hsplit parent

theorem splitInternalHalves (node : ParsedPage) (path : List PageId) :
    Mirrors F (splitInternalHalves split node path) (splitInternalHalves split' node path) := by
  unfold DiskBspIndex.splitInternalHalves
  refine .bind (allocateNodePage F) fun rightId => .bind (rebuildInternalKeys F _) fun node => ?_
  refine .bind (rebuildInternalKeys F _) fun right => .ite (.throw _) ?_
  refine .bind (subtreeMinEntry F _) fun separator => ?_
  exact insertIntoParent F hsplit node separator right path

end SplittingInner

theorem tryRedistributeInternalWithRight (node parent : ParsedPage) (i : Nat) (path : List PageId) :
    Mirrors F (tryRedistributeInternalWithRight node parent i path)
      (tryRedistributeInternalWithRight node parent i path) := by
  unfold DiskBspIndex.tryRedistributeInternalWithRight
  refine .ite (.pure _) (.bind (readPage F _) fun right => .ite (.pure _) ?_)
  cases right.children with
  | nil => exact .pure _
  | cons moved rest =>
    refine .ite (.pure _) (.bind (rebuildInternalKeys F _) fun node => ?_)
    refine .bind (rebuildInternalKeys F _) fun right => .ite (.pure _) ?_
    refine .bind (writePage F _) fun _ => .bind (writePage F _) fun _ => ?_
    refine .bind (rebuildInternalKeys F parent) fun parent => .bind (writePage F parent) fun _ => ?_
    exact .bind (propagateSubtreeMinChange F _ path) fun _ => .pure _

theorem tryRedistributeInternalWithLeft (node parent : ParsedPage) (i : Nat) (path : List PageId) :
    Mirrors F (tryRedistributeInternalWithLeft node parent i path)
      (tryRedistributeInternalWithLeft node parent i path) := by
  unfold DiskBspIndex.tryRedistributeInternalWithLeft
  refine .ite (.pure _) (.bind (readPage F _) fun left => .ite (.pure _) (.ite (.pure _) ?_))
  cases left.children.getLast? with
  | none => exact .pure _
  | some moved =>
    refine .bind (rebuildInternalKeys F _) fun node => .bind (rebuildInternalKeys F _) fun left => ?_
    refine .ite (.pure _) (.bind (writePage F _) fun _ => .bind (writePage F _) fun _ => ?_)
    refine .bind (rebuildInternalKeys F parent) fun parent => .bind (writePage F parent) fun _ => ?_
    exact .bind (propagateSubtreeMinChange F _ path) fun _ => .pure _

theorem splitInternal (path : List PageId) (node : ParsedPage) :
    Mirrors F (splitInternal path node) (splitInternal path node) := by
  induction path generalizing node with
  | nil => exact splitInternalHalves F (fun _ => .pure _) node []
  | cons cur parentPath ih =>
    cases parentPath with
    | nil => exact splitInternalHalves F (fun _ => .pure _) node [cur]
    | cons parentId above =>
      refine .bind (readPage F parentId) fun parent => .ite (.throw _) ?_
      cases parent.children.idxOf? node.pageId with
      | none => exact .throw _
      | some i =>
        refine .bind (tryRedistributeInternalWithRight F node parent i _) fun gave => .ite (.pure _) ?_
        refine .bind (tryRedistributeInternalWithLeft F node parent i _) fun gave => .ite (.pure _) ?_
        refine .ite (.bind (readPage F _) fun right => .ite (.throw _) ?_) ?_
        · exact splitInternalPair F ih node right parent i
        · refine .ite (.bind (readPage F _) fun left => .ite (.throw _) ?_) ?_
          · exact splitInternalPair F ih left node parent (i - 1)
          · exact splitInternalHalves F ih node _

theorem splitLeaf (leaf : ParsedPage) (path : List PageId) :
    Mirrors F (splitLeaf leaf path) (splitLeaf leaf path) := by
  rcases path with _ | ⟨cur, _ | ⟨parentId, above⟩⟩
  · exact splitLeafHalves F (fun _ => .pure _) leaf []
  · exact splitLeafHalves F (fun _ => .pure _) leaf [cur]
  · have hsplit := splitInternal F (parentId :: above)
    refine .bind (readPage F parentId) fun parent => .ite (.throw _) ?_
    cases parent.children.idxOf? leaf.pageId with
    | none => exact .throw _
    | some i =>
      refine .bind (tryGiveToRightLeaf F leaf parent i) fun gave => .ite (.pure _) ?_
      refine .bind (tryGiveToLeftLeaf F leaf parent i) fun gave => .ite (.pure _) ?_
      refine .ite (.bind (readPage F _) fun right => .ite (.throw _) ?_) ?_
      · exact splitLeafPair F hsplit leaf right parent i
      · refine .ite (.bind (readPage F _) fun left => .ite (.throw _) ?_) ?_
        · exact splitLeafPair F hsplit left leaf parent (i - 1)
        · exact splitLeafHalves F hsplit leaf _

/-- The end of both: another size, and the superblock. -/
theorem resize (f : Nat → Nat) :
    Mirrors F (do
        modify fun s : DiskBspIndex σ => { s with size := f s.size }
        DiskBspIndex.writeSuperblock)
      (do
        modify fun s : DiskBspIndex τ => { s with size := f s.size }
        DiskBspIndex.writeSuperblock) := by
  refine .bind (change (fun _ => rfl) fun s t h => ?_) fun _ => writeSuperblock F
  exact ⟨h.pager, h.rootPage, h.firstLeafPage, congrArg f h.size⟩

theorem insertAt (leaf : ParsedPage) (path : List PageId) (slot : Nat) (ent : LeafEntry) :
    Mirrors F (insert.insertAt leaf path slot ent) (insert.insertAt leaf path slot ent) := by
  unfold insert.insertAt
  have hend := resize F (· + 1)
  exact .ite (.bind (writePage F _) fun _ => hend) (.bind (splitLeaf F _ path) fun _ => hend)

theorem insert (key : Value) (rid : UInt64) : Mirrors F (insert key rid) (insert key rid) := by
  unfold DiskBspIndex.insert
  refine .ite (.throw _) (.bind (.fromExcept _) fun ent => get fun s t hroot _ hsize => ?_)
  rw [hsize, hroot]
  refine .ite (.bind (writePage F _) fun _ => resize F fun _ => 1) (.bind (findLeaf F key) fun r => ?_)
  obtain ⟨leaf, path⟩ := r
  refine .bind (.fromExcept _) fun slot => ?_
  cases leaf.leafEntries[slot]? with
  | none => exact insertAt F leaf path slot ent
  | some e =>
    exact .bind (.fromExcept _) fun there => .ite (.throw _) (insertAt F leaf path slot ent)

/-! ### Erasing -/

theorem promoteSingleChildRoot (root : ParsedPage) :
    Mirrors F (promoteSingleChildRoot root) (promoteSingleChildRoot root) := by
  unfold DiskBspIndex.promoteSingleChildRoot
  rcases root.children with _ | ⟨only, _ | ⟨c, cs⟩⟩
  · exact .throw _
  · refine .ite (.throw _) (.bind (readPage F only) fun child => ?_)
    refine .bind (change (fun _ => rfl) fun s t h => ⟨h.pager, rfl, h.firstLeafPage, h.size⟩) fun _ => ?_
    refine .ite ?_ ?_
    · exact change (fun _ => rfl) fun s t h => ⟨h.pager, h.rootPage, rfl, h.size⟩
    · refine .bind (leftmostLeaf F _) fun first => ?_
      exact change (fun _ => rfl) fun s t h => ⟨h.pager, h.rootPage, rfl, h.size⟩
  · exact .throw _

theorem refreshParent (parent : ParsedPage) (path : List PageId) :
    Mirrors F (refreshParent parent path) (refreshParent parent path) :=
  .bind (rebuildInternalKeys F parent) fun parent => .bind (writePage F parent) fun _ =>
    propagateSubtreeMinChange F parent.pageId path

theorem redistributeLeafPair (left right parent : ParsedPage) (path : List PageId) :
    Mirrors F (redistributeLeafPair left right parent path)
      (redistributeLeafPair left right parent path) := by
  unfold DiskBspIndex.redistributeLeafPair
  refine .ite (.throw _) (.bind (allocateNodePage F) fun middle => .bind (writePage F _) fun _ => ?_)
  refine .bind (writePage F _) fun _ => .bind (writePage F _) fun _ => ?_
  cases parent.children.idxOf? left.pageId with
  | none => exact .throw _
  | some i => exact refreshParent F _ path

theorem redistributeInternalPair (left right parent : ParsedPage) (path : List PageId) :
    Mirrors F (redistributeInternalPair left right parent path)
      (redistributeInternalPair left right parent path) := by
  unfold DiskBspIndex.redistributeInternalPair
  refine .bind (rebuildInternalKeys F _) fun left => .bind (rebuildInternalKeys F _) fun right => ?_
  refine .ite (.throw _) (.bind (writePage F _) fun _ => .bind (writePage F _) fun _ => ?_)
  exact refreshParent F parent path

section MendingInner
variable {handle : ParsedPage → IndexM σ Unit} {handle' : ParsedPage → IndexM τ Unit}
  (hhandle : ∀ p, Mirrors F (handle p) (handle' p))
include hhandle

theorem internalMergePair (left right parent : ParsedPage) (i : Nat) (path : List PageId) :
    Mirrors F (fixInternalUnderflow.mergePair handle left right parent i path)
      (fixInternalUnderflow.mergePair handle' left right parent i path) := by
  unfold fixInternalUnderflow.mergePair
  refine .bind (rebuildInternalKeys F _) fun merged => ?_
  exact .ite (redistributeInternalPair F left right parent path)
    (.bind (writePage F merged) fun _ => hhandle _)

theorem internalMerge (node parent : ParsedPage) (i : Nat) (path : List PageId) :
    Mirrors F (fixInternalUnderflow.merge handle node parent i path)
      (fixInternalUnderflow.merge handle' node parent i path) := by
  unfold fixInternalUnderflow.merge
  refine .ite (.bind (readPage F _) fun left => internalMergePair F hhandle left node parent _ path) ?_
  refine .ite (.throw _) (.bind (readPage F _) fun right => ?_)
  exact internalMergePair F hhandle node right parent i path

theorem internalBorrowRight (node parent : ParsedPage) (i : Nat) (path : List PageId) :
    Mirrors F (fixInternalUnderflow.borrowRight handle node parent i path)
      (fixInternalUnderflow.borrowRight handle' node parent i path) := by
  unfold fixInternalUnderflow.borrowRight
  have hmerge := internalMerge F hhandle node parent i path
  refine .ite (.bind (readPage F _) fun right => .ite (.throw _) (.ite ?_ hmerge)) hmerge
  refine .bind (rebuildInternalKeys F _) fun right => .bind (rebuildInternalKeys F _) fun node => ?_
  exact .bind (writePage F _) fun _ => .bind (writePage F _) fun _ => refreshParent F parent path

theorem internalBorrowLeft (node parent : ParsedPage) (i : Nat) (path : List PageId) :
    Mirrors F (fixInternalUnderflow.borrowLeft handle node parent i path)
      (fixInternalUnderflow.borrowLeft handle' node parent i path) := by
  unfold fixInternalUnderflow.borrowLeft
  have hright := internalBorrowRight F hhandle node parent i path
  refine .ite (.bind (readPage F _) fun left => .ite (.throw _) (.ite ?_ hright)) hright
  refine .bind (rebuildInternalKeys F _) fun left => .bind (rebuildInternalKeys F _) fun node => ?_
  exact .bind (writePage F _) fun _ => .bind (writePage F _) fun _ => refreshParent F parent path

theorem fixInternalUnderflow (node : ParsedPage) (path : List PageId) :
    Mirrors F (fixInternalUnderflow handle node path) (fixInternalUnderflow handle' node path) := by
  unfold DiskBspIndex.fixInternalUnderflow
  cases path with
  | nil => exact .throw _
  | cons cur parentPath =>
    refine .ite (.throw _) (get fun s t hroot _ _ => ?_)
    rw [hroot]
    refine .ite (.ite (promoteSingleChildRoot F node) ?_) ?_
    · exact .bind (rebuildInternalKeys F node) fun node => writePage F node
    · cases parentPath with
      | nil => exact .throw _
      | cons parentId above =>
        refine .bind (readPage F parentId) fun parent => .ite (.throw _) ?_
        cases parent.children.idxOf? node.pageId with
        | none => exact .throw _
        | some i => exact internalBorrowLeft F hhandle node parent i _

end MendingInner

theorem handleInternalAfterChildRemoved (path : List PageId) (node : ParsedPage) :
    Mirrors F (handleInternalAfterChildRemoved path node) (handleInternalAfterChildRemoved path node) := by
  induction path generalizing node with
  | nil => exact .ite (.throw _) (.throw _)
  | cons cur parentPath ih =>
    refine .ite (.throw _) (.ite (.throw _) (.bind (rebuildInternalKeys F node) fun node => ?_))
    refine get fun s t hroot _ _ => ?_
    rw [hroot]
    refine .ite (.ite (promoteSingleChildRoot F node) (writePage F node)) (.ite ?_ ?_)
    · exact fixInternalUnderflow F ih node _
    · exact .bind (writePage F node) fun _ => propagateSubtreeMinChange F _ _

theorem leafMergePair (left right parent : ParsedPage) (i : Nat) (path : List PageId) (gone : PageId) :
    Mirrors F (fixLeafUnderflow.mergePair left right parent i path gone)
      (fixLeafUnderflow.mergePair left right parent i path gone) := by
  unfold fixLeafUnderflow.mergePair
  refine .ite (redistributeLeafPair F left right parent path) (.bind (change ?_ ?_) fun _ => ?_)
  · intro s
    split <;> rfl
  · intro s t h
    rw [h.firstLeafPage]
    split
    · exact ⟨h.pager, h.rootPage, rfl, h.size⟩
    · exact h
  · exact .bind (writePage F _) fun _ => handleInternalAfterChildRemoved F path _

theorem leafMerge (leaf parent : ParsedPage) (i : Nat) (path : List PageId) :
    Mirrors F (fixLeafUnderflow.merge leaf parent i path) (fixLeafUnderflow.merge leaf parent i path) := by
  unfold fixLeafUnderflow.merge
  refine .ite (.bind (readPage F _) fun left => leafMergePair F left leaf parent _ path _) ?_
  refine .ite (.throw _) (.bind (readPage F _) fun right => ?_)
  exact leafMergePair F leaf right parent i path _

theorem leafBorrowRight (leaf parent : ParsedPage) (i : Nat) (path : List PageId) :
    Mirrors F (fixLeafUnderflow.borrowRight leaf parent i path)
      (fixLeafUnderflow.borrowRight leaf parent i path) := by
  unfold fixLeafUnderflow.borrowRight
  have hmerge := leafMerge F leaf parent i path
  refine .ite (.bind (readPage F _) fun right => .ite (.throw _) (.ite ?_ hmerge)) hmerge
  exact .bind (writePage F _) fun _ => .bind (writePage F _) fun _ => refreshParent F parent path

theorem leafBorrowLeft (leaf parent : ParsedPage) (i : Nat) (path : List PageId) :
    Mirrors F (fixLeafUnderflow.borrowLeft leaf parent i path)
      (fixLeafUnderflow.borrowLeft leaf parent i path) := by
  unfold fixLeafUnderflow.borrowLeft
  have hright := leafBorrowRight F leaf parent i path
  refine .ite (.bind (readPage F _) fun left => .ite (.throw _) (.ite ?_ hright)) hright
  exact .bind (writePage F _) fun _ => .bind (writePage F _) fun _ => refreshParent F parent path

theorem fixLeafUnderflow (leaf : ParsedPage) (path : List PageId) :
    Mirrors F (fixLeafUnderflow leaf path) (fixLeafUnderflow leaf path) := by
  unfold DiskBspIndex.fixLeafUnderflow
  cases path with
  | nil => exact .throw _
  | cons cur parentPath =>
    refine .ite (.throw _) (get fun s t hroot _ _ => ?_)
    rw [hroot]
    refine .ite (writePage F leaf) ?_
    cases parentPath with
    | nil => exact .throw _
    | cons parentId above =>
      refine .bind (readPage F parentId) fun parent => .ite (.throw _) ?_
      cases parent.children.idxOf? leaf.pageId with
      | none => exact .throw _
      | some i => exact leafBorrowLeft F leaf parent i _

theorem eraseAt (leaf : ParsedPage) (path : List PageId) (slot : Nat) :
    Mirrors F (erase.eraseAt leaf path slot) (erase.eraseAt leaf path slot) := by
  unfold erase.eraseAt
  refine .bind (change (fun _ => rfl) fun s t h => ?_) fun _ => get fun s t hroot _ hsize => ?_
  · exact ⟨h.pager, h.rootPage, h.firstLeafPage, congrArg (· - 1) h.size⟩
  · rw [hsize, hroot]
    have hend := writeSuperblock F
    refine .ite (.bind (writePage F _) fun _ => .bind (change (fun _ => rfl) fun s t h => ?_) fun _ => hend) ?_
    · exact ⟨h.pager, rfl, rfl, h.size⟩
    · refine .ite (.bind (writePage F _) fun _ => ?_) (.bind (fixLeafUnderflow F _ path) fun _ => hend)
      exact .ite (.bind (propagateSubtreeMinChange F _ path) fun _ => hend) hend

theorem erase (key : Value) : Mirrors F (erase key) (erase key) := by
  unfold DiskBspIndex.erase
  refine get fun s t _ _ hsize => ?_
  rw [hsize]
  refine .ite (.pure _) (.bind (findLeaf F key) fun r => ?_)
  obtain ⟨leaf, path⟩ := r
  refine .bind (.fromExcept _) fun slot => ?_
  cases leaf.leafEntries[slot]? with
  | none => exact .pure _
  | some e =>
    refine .bind (.fromExcept _) fun probe => .bind (.fromExcept _) fun there => .ite (.pure _) ?_
    exact .bind (eraseAt F leaf path slot) fun _ => .pure _

/-! ### New indexes -/

theorem createEmpty : Mirrors F createEmpty createEmpty := by
  refine .bind (onPager F.reservePage) fun _ => .bind (allocateNodePage F) fun root => ?_
  refine .bind (change (fun _ => rfl) fun s t h => ⟨h.pager, rfl, rfl, rfl⟩) fun _ => ?_
  exact .bind (writePage F _) fun _ => writeSuperblock F

theorem flush : Mirrors F flush flush := .bind (writeSuperblock F) fun _ => onPager F.flush

theorem emitLeaf (chunk : List LeafEntry) : Mirrors F (emitLeaf chunk) (emitLeaf chunk) :=
  .bind (allocateNodePage F) fun pid => .bind (writePage F _) fun _ => .pure pid

theorem emitLeaves (entries chunk : List LeafEntry) (chunkBytes : Nat) :
    Mirrors F (emitLeaves entries chunk chunkBytes) (emitLeaves entries chunk chunkBytes) := by
  induction entries generalizing chunk chunkBytes with
  | nil => exact .ite (.pure []) (.bind (emitLeaf F chunk) fun pid => .pure [pid])
  | cons entry rest ih =>
    refine .ite (.bind (emitLeaf F chunk) fun pid => ?_) (ih _ _)
    exact .bind (ih _ _) fun pids => .pure (pid :: pids)

theorem linkLeaves (pages : List PageId) : Mirrors F (linkLeaves pages) (linkLeaves pages) := by
  induction pages with
  | nil => exact .pure _
  | cons a rest ih =>
    cases rest with
    | nil => exact .pure _
    | cons b rest => exact .bind (readPage F a) fun p => .bind (writePage F _) fun _ => ih

theorem separatorKeyForPage (page : PageId) :
    Mirrors F (separatorKeyForPage page) (separatorKeyForPage page) := by
  refine .bind (readPage F page) fun p => .ite ?_ (subtreeMinEntry F page)
  cases p.leafEntries with
  | nil => exact .throw _
  | cons e es => exact .pure e

theorem gatherGroup (pages children : List PageId) (keys : List LeafEntry) :
    Mirrors F (gatherGroup pages children keys) (gatherGroup pages children keys) := by
  induction pages generalizing children keys with
  | nil => exact .pure _
  | cons page rest ih => exact .bind (separatorKeyForPage F page) fun sep => .ite (.pure _) (ih _ _)

theorem buildLevel (fuel : Nat) (level : List PageId) :
    Mirrors F (buildLevel fuel level) (buildLevel fuel level) := by
  induction fuel generalizing level with
  | zero =>
    cases level with
    | nil => exact .pure []
    | cons page level => exact .throw _
  | succ fuel ih =>
    cases level with
    | nil => exact .pure []
    | cons page level =>
      refine .bind (gatherGroup F level [page] []) fun r => ?_
      obtain ⟨children, keys, rest⟩ := r
      refine .ite (.throw _) (.bind (allocateNodePage F) fun inner => .bind (writePage F _) fun _ => ?_)
      exact .bind (ih rest) fun inners => .pure (inner :: inners)

theorem buildLevels (fuel : Nat) (level : List PageId) :
    Mirrors F (buildLevels fuel level) (buildLevels fuel level) := by
  induction fuel generalizing level with
  | zero =>
    rcases level with _ | ⟨root, _ | ⟨b, rest⟩⟩
    · exact .throw _
    · exact .pure root
    · exact .throw _
  | succ fuel ih =>
    rcases level with _ | ⟨root, _ | ⟨b, rest⟩⟩
    · exact .bind (buildLevel F _ _) fun next => ih next
    · exact .pure root
    · exact .bind (buildLevel F _ _) fun next => ih next

theorem bulkBuild (budget : MemoryBudget) (entries : List (Value × UInt64)) :
    Mirrors F (bulkBuild budget entries) (bulkBuild budget entries) := by
  refine .bind (.fromExcept _) fun _ => .bind (.fromExcept _) fun flat => .bind (.fromExcept _) fun _ => ?_
  refine .bind (onPager F.reservePage) fun _ => ?_
  refine .bind (change (fun _ => rfl) fun s t h => ⟨h.pager, h.rootPage, h.firstLeafPage, rfl⟩) fun _ => ?_
  have hend := flush F
  refine .ite (.bind (allocateNodePage F) fun root => ?_) (.bind (emitLeaves F flat [] _) fun pages => ?_)
  · refine .bind (change (fun _ => rfl) fun s t h => ⟨h.pager, rfl, rfl, h.size⟩) fun _ => ?_
    exact .bind (writePage F _) fun _ => hend
  · refine .bind (linkLeaves F pages) fun _ => ?_
    refine .bind (change (fun _ => rfl) fun s t h => ⟨h.pager, h.rootPage, rfl, h.size⟩) fun _ => ?_
    refine .bind (buildLevels F _ pages) fun root => ?_
    exact .bind (change (fun _ => rfl) fun s t h => ⟨h.pager, rfl, h.firstLeafPage, h.size⟩) fun _ => hend

end Mirrors

/-! ### The calls of a table -/

section Calls
variable {σ τ : Type} [FileStore σ] [FileStore τ] (F : Following σ τ)

theorem Mirrors.collectLoop (hi : Option Value) (hiInclusive : Bool) (fuel : Nat) (it : ConstIterator) :
    Mirrors F (Table.collectLoop (ι := DiskBspIndex σ) hi hiInclusive fuel it)
      (Table.collectLoop (ι := DiskBspIndex τ) hi hiInclusive fuel it) := by
  induction fuel generalizing it with
  | zero => exact .throw _
  | succ fuel ih =>
    obtain ⟨x, hx⟩ : ∃ x, x = it.here.map fun e => (e.1, e.2.toNat) := ⟨_, rfl⟩
    have hleft : TableIndex.here (ι := DiskBspIndex σ) it = x := hx.symm
    have hright : TableIndex.here (ι := DiskBspIndex τ) it = x := hx.symm
    rw [Table.collectLoop, Table.collectLoop, hleft, hright]
    cases x with
    | none => exact .pure []
    | some e => exact .ite (.pure []) (.bind (next F it) fun it => .bind (ih it) fun rest => .pure _)

theorem Mirrors.collectFrom (lo : Option Value) (loInclusive : Bool) :
    Mirrors F (Table.collectFrom (ι := DiskBspIndex σ) lo loInclusive)
      (Table.collectFrom (ι := DiskBspIndex τ) lo loInclusive) := by
  cases lo with
  | none => exact begin F
  | some lo => exact .ite (lowerBound F lo) (upperBound F lo)

theorem Mirrors.collectIds (lo : Option Value) (loInclusive : Bool) (hi : Option Value)
    (hiInclusive : Bool) : Mirrors F (collectIds (ι := DiskBspIndex σ) lo loInclusive hi hiInclusive)
      (collectIds (ι := DiskBspIndex τ) lo loInclusive hi hiInclusive) := by
  refine .bind (collectFrom F lo loInclusive) fun it => ?_
  exact counting F fun n => collectLoop F hi hiInclusive ((n + 1) * kPageSize) it

/-- Every call of a table is made of code of the index. -/
theorem Mirrors.call (c : IndexCall) :
    Mirrors F (c.run (ι := DiskBspIndex σ)) (c.run (ι := DiskBspIndex τ)) := by
  cases c with
  | insert key id => exact .bind (insert F key _) fun _ => .pure _
  | erase key => exact .bind (erase F key) fun there => .pure _
  | find key => exact .bind (find F key) fun it => .pure _
  | collect lo loInclusive hi hiInclusive =>
    exact .bind (collectIds F lo loInclusive hi hiInclusive) fun ids => .pure _

end Calls
end DiskBspIndex
end CwDb.Storage
