import CwDb.Storage.Index.Following
import CwDb.Storage.Index.PagedStore
import CwDb.Storage.PageArray

/-! The index over its page file, by way of the nodes.

`NodeLog` gives nodes back as they were written and remembers what was written. As long as
every node written was one that its page keeps, the page file, through its cache, does what
`NodeLog` does (`pagedFollowing`); and `NodeLog` does what `NodeMap` does
(`plainFollowing`). -/
namespace CwDb.Storage
open Foundation

/-- A node that was written, and how many pages there were. -/
structure Writing where
  node : ParsedPage
  pageCount : Nat

/-- A page of the file keeps the node. -/
structure Writing.Kept (w : Writing) : Prop where
  proper : w.node.Proper
  count : w.node.count ≤ 255
  inFile : w.node.pageId < w.pageCount

structure NodeLog where
  nodes : NodeMap
  written : List Writing

namespace NodeLog
variable {α : Type}

/-- No node, and nothing written. -/
def empty : NodeLog := ⟨NodeMap.empty, []⟩

def onNodes (x : EStateM Exn NodeMap α) : EStateM Exn NodeLog α := fun s =>
  match x s.nodes with
  | .ok a t => .ok a { s with nodes := t }
  | .error e t => .error e { s with nodes := t }

def writePage (page : ParsedPage) : EStateM Exn NodeLog Unit := fun s =>
  match NodeMap.writePage page s.nodes with
  | .ok _ t => .ok () ⟨t, ⟨page, s.nodes.count⟩ :: s.written⟩
  | .error e t => .error e { s with nodes := t }

instance : NodeStore NodeLog where
  readPage id := onNodes (NodeStore.readPage id)
  writePage := writePage
  allocateNodePage := onNodes NodeStore.allocateNodePage
  reservePage := onNodes NodeStore.reservePage
  writeSuperblock root first size := onNodes (NodeStore.writeSuperblock root first size)
  flush := onNodes NodeStore.flush
  pageCount s := s.nodes.count

instance : FileStore NodeLog where
  File := DiskBspIndex NodeLog
  created := .ok empty
  budget := .unknown
  isOpen _ := true
  opened _ s := .ok s
  file s := s

/-- Some node was written that no page keeps. -/
def Spoilt (s : NodeLog) : Prop := ∃ w ∈ s.written, ¬ w.Kept

/-! ### The nodes alone -/

theorem onNodes_follows (x : EStateM Exn NodeMap α) :
    Follows (fun _ : NodeLog => False) (fun s t => s.nodes = t) (onNodes x) x := by
  refine ⟨fun _ h => h, fun s t h => .inr ?_⟩
  subst h
  unfold onNodes
  cases x s.nodes with
  | ok a t => exact .ok a rfl
  | error e t => exact .error e rfl

theorem keeps_spoilt_onNodes (x : EStateM Exn NodeMap α) : Keeps Spoilt (onNodes x) := by
  intro s hs
  unfold onNodes
  cases x s.nodes with
  | ok a t => exact hs
  | error e t => exact hs

theorem writePage_follows (p : ParsedPage) :
    Follows (fun _ : NodeLog => False) (fun s t => s.nodes = t) (writePage p) (NodeMap.writePage p) := by
  refine ⟨fun _ h => h, fun s t h => .inr ?_⟩
  subst h
  unfold writePage
  cases NodeMap.writePage p s.nodes with
  | ok a t => exact .ok () rfl
  | error e t => exact .error e rfl

/-- What a page does to a node that does not fit it. -/
def overflowError (p : ParsedPage) : Exn :=
  .runtimeError (if p.type = .leaf then "Leaf index page overflow" else "Inner index page overflow")

theorem writePage_fits {p : ParsedPage} {s : NodeLog} (h : NodeMap.overflows p = false) :
    writePage p s = .ok () ⟨s.nodes.put p.pageId (some p.stored), ⟨p, s.nodes.count⟩ :: s.written⟩ := by
  simp only [writePage, NodeMap.writePage, h, Bool.false_eq_true, if_false]

theorem writePage_overflows {p : ParsedPage} {s : NodeLog} (h : NodeMap.overflows p = true) :
    writePage p s = .error (overflowError p) s := by
  simp only [writePage, NodeMap.writePage, h, if_true]
  rfl

theorem keeps_spoilt_writePage (p : ParsedPage) : Keeps Spoilt (writePage p) := by
  intro s hs
  obtain ⟨w, hw, hbad⟩ := hs
  cases h : NodeMap.overflows p with
  | true =>
    rw [writePage_overflows h]
    exact ⟨w, hw, hbad⟩
  | false =>
    rw [writePage_fits h]
    exact ⟨w, List.mem_cons_of_mem _ hw, hbad⟩

end NodeLog

/-- `NodeLog` does what `NodeMap` does. -/
def plainFollowing : Following NodeLog NodeMap where
  Lost _ := False
  Rel s t := s.nodes = t
  nonempty := ⟨NodeMap.empty⟩
  readPage _ := NodeLog.onNodes_follows _
  writePage := NodeLog.writePage_follows
  allocateNodePage := NodeLog.onNodes_follows _
  reservePage := NodeLog.onNodes_follows _
  writeSuperblock _ _ _ := NodeLog.onNodes_follows _
  flush := NodeLog.onNodes_follows _
  pageCount _ _ h := congrArg NodeMap.count h

/-! ### The pages -/

theorem encodePage_overflows {p : ParsedPage} (h : NodeMap.overflows p = true) :
    encodePage p = .error (NodeLog.overflowError p) := by
  unfold NodeMap.overflows at h
  unfold encodePage NodeLog.overflowError
  by_cases ht : p.type = .leaf
  · rw [if_pos ht] at h
    rw [if_pos ht, if_pos ht, if_pos h]
  · rw [if_neg ht] at h
    rw [if_neg ht, if_neg ht, if_pos h]

theorem encodePage_fits {p : ParsedPage} (h : NodeMap.overflows p = false) :
    ∃ raw, encodePage p = .ok raw := by
  unfold NodeMap.overflows at h
  unfold encodePage
  by_cases ht : p.type = .leaf
  · rw [if_pos ht] at h
    rw [if_pos ht, h]
    exact ⟨_, rfl⟩
  · rw [if_neg ht] at h
    rw [if_neg ht, h]
    exact ⟨_, rfl⟩

/-- What reading a page gives. -/
def NodeMap.nodeAt (s : NodeMap) (id : PageId) : Except Exn ParsedPage :=
  match s.pages id with
  | some p => .ok p
  | none => .error (.runtimeError "Corrupt index page")

theorem NodeMap.nodeAt_some {s : NodeMap} {id : PageId} {p : ParsedPage} (h : s.pages id = some p) :
    s.nodeAt id = .ok p := by
  rw [nodeAt, h]

theorem NodeMap.nodeAt_none {s : NodeMap} {id : PageId} (h : s.pages id = none) :
    s.nodeAt id = .error (.runtimeError "Corrupt index page") := by
  rw [nodeAt, h]

theorem NodeMap.readPage_nodeAt {s : NodeMap} {id : PageId} (h : id < s.count) :
    NodeMap.readPage id s = fromExcept (s.nodeAt id) s := by
  rw [NodeMap.readPage, if_pos h]
  cases hp : s.pages id with
  | none => rw [nodeAt_none hp, fromExcept_error_apply]
  | some p => rw [nodeAt_some hp, fromExcept_ok_apply]

theorem NodeMap.nodeAt_put_ne (s : NodeMap) {id i : PageId} (page : Option ParsedPage) (h : i ≠ id) :
    (s.put id page).nodeAt i = s.nodeAt i := by
  rw [nodeAt, nodeAt, put_pages_ne _ _ h]

namespace Pager

/-- The pages are the nodes. -/
structure NodePages (s : NodeMap) (pages : List Bytes) : Prop where
  count : s.count = pages.length
  nodes : ∀ id raw, pages[id]? = some raw → parsePage id raw = s.nodeAt id

/-- The pages of the pager are the nodes. -/
def HoldsNodes (s : NodeMap) (t : Pager) : Prop := ∃ pages, Represents pages t ∧ NodePages s pages

/-- A page that is put in the file or right behind it. -/
theorem NodePages.put {s : NodeMap} {pages : List Bytes} (h : NodePages s pages) {id : PageId}
    {page : Option ParsedPage} {raw : Bytes} (hid : id ≤ s.count)
    (hparse : parsePage id raw = (s.put id page).nodeAt id) :
    NodePages (s.put id page) (putPage pages id raw) where
  count := by rw [length_putPage (h.count ▸ hid), NodeMap.put_count, h.count]
  nodes i other hi := by
    have hview := congrFun (putPage_getElem? (h.count ▸ hid) raw) i
    rw [hview] at hi
    rcases update_some hi with ⟨rfl, rfl⟩ | ⟨hne, hi⟩
    · exact hparse
    · rw [NodeMap.nodeAt_put_ne _ _ hne]
      exact h.nodes i other hi

/-- A page without the magic number is no node. -/
theorem NodePages.putNone {s : NodeMap} {pages : List Bytes} (h : NodePages s pages) {id : PageId}
    {raw : Bytes} (hid : id ≤ s.count) (hmagic : word raw 0 4 ≠ kPageMagic) :
    NodePages (s.put id none) (putPage pages id raw) := by
  apply h.put hid
  rw [NodeMap.nodeAt_none (NodeMap.put_pages_self _ _ _), parsePage, if_pos hmagic]

theorem Represents.readPage {pages : List Bytes} {t : Pager} (h : Represents pages t) {id : PageId}
    {raw : Bytes} (hid : pages[id]? = some raw) :
    ∃ t', Pager.readPage id t = .ok raw t' ∧ Represents pages t' := by
  obtain ⟨t', hread, ht, hsame⟩ := readPage_array h.cached hid
  exact ⟨t', hread, h.of_cached ht hsame.isOpen hsame.pageCount⟩

theorem Represents.readPage_past {pages : List Bytes} {t : Pager} (h : Represents pages t)
    {id : PageId} (hid : pages.length ≤ id) : Pager.readPage id t =
      .error (.runtimeError ("Read past end of page file: page " ++ toString id)) t := by
  have hcount : id ≥ t.pageCount := h.pageCount ▸ hid
  rw [Pager.readPage, get_bind_apply]
  by_cases hc : t.cacheCapacity = 0
  · rw [if_pos hc, if_pos hcount, throw_apply]
  · have hnone : t.cache.lookup id = none := by
      cases hfound : t.cache.lookup id with
      | none => rfl
      | some slot =>
        have hlt := h.cached.backs.view_lt id slot.data (h.cached.backs.cached id slot hfound)
        exact absurd hlt (Nat.not_lt.mpr hcount)
    rw [if_neg hc, hnone]
    refine bind_error ?_
    rw [loadPageFromDisk, get_bind_apply, if_pos hcount, throw_apply]

namespace HoldsNodes
variable {s : NodeMap} {t : Pager}

theorem readNode (h : HoldsNodes s t) (id : PageId) :
    Agree HoldsNodes (NodeMap.readPage id s) (Pager.readNode id t) := by
  obtain ⟨pages, ht, hcount, hnodes⟩ := h
  by_cases hid : id < s.count
  · have hraw := List.getElem?_eq_getElem (hcount ▸ hid)
    obtain ⟨t', hread, ht'⟩ := ht.readPage hraw
    rw [NodeMap.readPage_nodeAt hid, Pager.readNode, bind_ok hread, hnodes id _ hraw]
    exact agree_fromExcept _ ⟨pages, ht', ⟨hcount, hnodes⟩⟩
  · have hpast := ht.readPage_past (hcount ▸ Nat.not_lt.mp hid)
    rw [NodeMap.readPage, if_neg hid, Pager.readNode, bind_error hpast]
    exact .error _ ⟨pages, ht, ⟨hcount, hnodes⟩⟩

/-- A page that is written, in the file or right behind it. -/
theorem put (h : HoldsNodes s t) {id : PageId} {page : Option ParsedPage} {raw : Bytes}
    (hid : id ≤ s.count) (hlen : raw.length = kPageSize)
    (hparse : parsePage id raw = (s.put id page).nodeAt id) :
    ∃ t', Pager.writePage id raw t = .ok () t' ∧ HoldsNodes (s.put id page) t' := by
  obtain ⟨pages, ht, hpages⟩ := h
  obtain ⟨t', hwrite, ht', -⟩ := ht.writePage (hpages.count ▸ hid) hlen
  exact ⟨t', hwrite, putPage pages id raw, ht', hpages.put hid hparse⟩

theorem putNone (h : HoldsNodes s t) {id : PageId} {raw : Bytes} (hid : id ≤ s.count)
    (hlen : raw.length = kPageSize) (hmagic : word raw 0 4 ≠ kPageMagic) :
    ∃ t', Pager.writePage id raw t = .ok () t' ∧ HoldsNodes (s.put id none) t' := by
  obtain ⟨pages, ht, hpages⟩ := h
  obtain ⟨t', hwrite, ht', -⟩ := ht.writePage (hpages.count ▸ hid) hlen
  exact ⟨t', hwrite, putPage pages id raw, ht', hpages.putNone hid hmagic⟩

theorem isOpen (h : HoldsNodes s t) : t.isOpen = true := by
  obtain ⟨pages, ht, -⟩ := h
  exact ht.isOpen

theorem pageCount (h : HoldsNodes s t) : t.pageCount = s.count := by
  obtain ⟨pages, ht, hcount, -⟩ := h
  exact ht.pageCount.trans hcount.symm

end HoldsNodes

theorem zeroPage_magic : word zeroPage 0 4 ≠ kPageMagic := by decide +kernel

theorem superblockImage_length (root first : PageId) (size : Nat) :
    (superblockImage root first size).length = kPageSize := by
  refine padPage_length ?_
  simp only [List.length_append, LittleEndian.encode_length]
  decide

section Superblock
variable (root first : PageId) (size : Nat)

/-- The five numbers of the superblock, one after the other. -/
theorem superblockImage_eq : superblockImage root first size =
    LittleEndian.encode 4 kIdxMagic ++ (LittleEndian.encode 4 kIdxVersion ++
      (LittleEndian.encode 4 root ++ (LittleEndian.encode 4 first ++
        (LittleEndian.encode 8 size ++ List.replicate (kPageSize - 24) 0)))) := by
  simp only [superblockImage, padPage, List.length_append, LittleEndian.encode_length,
    List.append_assoc]

theorem superblock_magic : word (superblockImage root first size) 0 4 = kIdxMagic := by
  rw [superblockImage_eq]
  exact word_mid [] _ 0 4 kIdxMagic rfl (by decide)

theorem superblock_version : word (superblockImage root first size) 4 4 = kIdxVersion := by
  rw [superblockImage_eq]
  exact word_mid _ _ 4 4 kIdxVersion (LittleEndian.encode_length _ _).symm (by decide)

theorem superblock_root (h : root < 2 ^ 32) : word (superblockImage root first size) 8 4 = root := by
  rw [superblockImage_eq, ← List.append_assoc]
  exact word_mid _ _ 8 4 root (by simp only [List.length_append, LittleEndian.encode_length]) h

theorem superblock_first (h : first < 2 ^ 32) :
    word (superblockImage root first size) 12 4 = first := by
  rw [superblockImage_eq, ← List.append_assoc, ← List.append_assoc]
  exact word_mid _ _ 12 4 first (by simp only [List.length_append, LittleEndian.encode_length]) h

theorem superblock_size (h : size < 2 ^ 64) : word (superblockImage root first size) 16 8 = size := by
  rw [superblockImage_eq, ← List.append_assoc, ← List.append_assoc, ← List.append_assoc]
  exact word_mid _ _ 16 8 size (by simp only [List.length_append, LittleEndian.encode_length]) h

end Superblock

theorem superblock_no_node (root first : PageId) (size : Nat) :
    word (superblockImage root first size) 0 4 ≠ kPageMagic := by
  rw [superblock_magic]
  decide

/-! ### The following -/

theorem follows_of_agree {α : Type} {x : EStateM Exn NodeMap α} {y : PagerM α}
    (h : ∀ s t, HoldsNodes s t → Agree HoldsNodes (x s) (y t)) :
    Follows NodeLog.Spoilt (fun s t => HoldsNodes s.nodes t) (NodeLog.onNodes x) y := by
  refine ⟨NodeLog.keeps_spoilt_onNodes x, fun s t hst => .inr ?_⟩
  have hagree := h s.nodes t hst
  unfold NodeLog.onNodes
  cases hx : x s.nodes with
  | ok a u =>
    rw [hx] at hagree
    exact ⟨hagree.outcome, hagree.state⟩
  | error e u =>
    rw [hx] at hagree
    exact ⟨hagree.outcome, hagree.state⟩

theorem reservePage_agree {s : NodeMap} {t : Pager} (h : HoldsNodes s t) :
    Agree HoldsNodes (.ok () (s.put 0 none)) (Pager.writePage 0 zeroPage t) := by
  obtain ⟨t', hwrite, ht'⟩ := h.putNone (Nat.zero_le _) length_zeroPage zeroPage_magic
  rw [hwrite]
  exact .ok () ht'

theorem allocatePage_agree {s : NodeMap} {t : Pager} (h : HoldsNodes s t) :
    Agree HoldsNodes (.ok s.count (s.put s.count none)) (Pager.allocatePage t) := by
  obtain ⟨t', hwrite, ht'⟩ := h.putNone (Nat.le_refl _) length_zeroPage zeroPage_magic
  rw [Pager.allocatePage, get_bind_apply, h.pageCount, bind_ok hwrite, pure_apply]
  exact .ok _ ht'

theorem allocateNodePage_agree {s : NodeMap} {t : Pager} (h : HoldsNodes s t) :
    Agree HoldsNodes (NodeMap.allocateNodePage s) (Pager.allocateNodePage t) := by
  unfold NodeMap.allocateNodePage Pager.allocateNodePage
  rw [get_bind_apply, h.pageCount]
  split
  · obtain ⟨t', hwrite, ht'⟩ := h.putNone (Nat.zero_le _) length_zeroPage zeroPage_magic
    show Agree HoldsNodes _ ((Pager.writePage 0 zeroPage >>= fun _ => Pager.allocatePage) t)
    rw [bind_ok hwrite]
    exact allocatePage_agree ht'
  · exact allocatePage_agree h

theorem writeSuperblock_agree {s : NodeMap} {t : Pager} (h : HoldsNodes s t) (root first : PageId)
    (size : Nat) : Agree HoldsNodes (.ok () (s.put 0 none)) (Pager.writeSuperblock root first size t) := by
  obtain ⟨t', hwrite, ht'⟩ := h.putNone (Nat.zero_le _) (superblockImage_length root first size)
    (superblock_no_node root first size)
  rw [Pager.writeSuperblock, get_bind_apply, if_pos h.isOpen, hwrite]
  exact .ok () ht'

theorem flush_agree {s : NodeMap} {t : Pager} (h : HoldsNodes s t) :
    Agree HoldsNodes (.ok () s) (Pager.flush t) := by
  obtain ⟨pages, ht, hnodes⟩ := h
  obtain ⟨t', hflush, ht', -⟩ := ht.flush
  rw [hflush]
  exact .ok () ⟨pages, ht', hnodes⟩

/-- A node that its page keeps is the node there, and else the log is spoilt. -/
theorem writeNode_follows (p : ParsedPage) : Follows NodeLog.Spoilt (fun s t => HoldsNodes s.nodes t)
    (NodeLog.writePage p) (Pager.writeNode p) := by
  refine ⟨NodeLog.keeps_spoilt_writePage p, fun s t h => ?_⟩
  cases hfits : NodeMap.overflows p with
  | true =>
    rw [NodeLog.writePage_overflows hfits, Pager.writeNode, encodePage_overflows hfits]
    exact .inr (.error _ h)
  | false =>
    rw [NodeLog.writePage_fits hfits]
    by_cases hkept : Writing.Kept ⟨p, s.nodes.count⟩
    · obtain ⟨raw, hraw⟩ := encodePage_fits hfits
      have hparse : parsePage p.pageId raw =
          (s.nodes.put p.pageId (some p.stored)).nodeAt p.pageId := by
        rw [NodeMap.nodeAt_some (NodeMap.put_pages_self _ _ _)]
        exact parsePage_encodePage hkept.proper hraw hkept.count
      obtain ⟨t', hwrite, ht'⟩ := h.put hkept.inFile.le (encodePage_length hkept.proper hraw) hparse
      right
      rw [Pager.writeNode, hraw]
      show Agree _ _ (Pager.writePage p.pageId raw t)
      rw [hwrite]
      exact .ok () ht'
    · exact .inl ⟨_, List.mem_cons_self, hkept⟩

end Pager

/-- The page file does what `NodeLog` does, until a node is written that no page keeps. -/
def pagedFollowing : Following NodeLog Pager where
  Lost := NodeLog.Spoilt
  Rel s t := Pager.HoldsNodes s.nodes t
  nonempty := ⟨{}⟩
  readPage id := Pager.follows_of_agree fun _ _ h => h.readNode id
  writePage := Pager.writeNode_follows
  allocateNodePage := Pager.follows_of_agree fun _ _ h => Pager.allocateNodePage_agree h
  reservePage := Pager.follows_of_agree fun _ _ h => Pager.reservePage_agree h
  writeSuperblock root first size :=
    Pager.follows_of_agree fun _ _ h => Pager.writeSuperblock_agree h root first size
  flush := Pager.follows_of_agree fun _ _ h => Pager.flush_agree h
  pageCount _ _ h := h.pageCount.symm

end CwDb.Storage
