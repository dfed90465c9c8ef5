import CwDb.Storage.Index.WriteLog
import CwDb.Storage.Index.Held

/-! The index in its page file.

A file whose pages are the nodes of a tree, in order and narrow, with the numbers of the
index in page 0, opens as an index of the pairs of the tree (`openFile_filed`). Flushing puts
an index there (`flush_filed`); until then some of its pages may be in the cache alone. -/
namespace CwDb.Storage
open Foundation

/-- The pager of a file that was just opened. -/
def Pager.opened (existing : Option Bytes) (create : Bool) : Except Exn Pager :=
  match Pager.openFile existing create {} with
  | .ok _ s => .ok s
  | .error e _ => .error e

instance : FileStore Pager where
  File := Bytes
  created := Pager.opened none true
  budget := .unknown
  isOpen := Pager.isOpen
  opened path file := do
    DiskBspIndex.made (DiskBspIndex.openSuperblock path) (.blank (← Pager.opened (some file) false))
  file s := s.pager.file

namespace DiskBspIndex
open BPlusTree

variable {ty : DataType} {H : Nat} {t : BPlusTree LeafEntry H} {n : NodeMap}

/-- The index whose nodes these are. -/
def withNodes {σ : Type} (d : DiskBspIndex σ) (n : NodeMap) : DiskBspIndex NodeMap :=
  ⟨n, d.rootPage, d.firstLeafPage, d.size⟩

/-- The same with a log of what is written. -/
def logged {σ : Type} (d : DiskBspIndex σ) (n : NodeMap) : DiskBspIndex NodeLog :=
  ⟨⟨n, []⟩, d.rootPage, d.firstLeafPage, d.size⟩

/-! ### Scans -/

theorem scan_logged {d : DiskBspIndex Pager} (hs : Stands ty t (d.withNodes n)) :
    ∃ L, scan (d.logged n) = .ok (t.entries.map fun e => (e.value, e.rid)) L ∧
      L.pager.written = [] := by
  have hplain := (Mirrors.scan plainFollowing).agree (d.logged n) (d.withNodes n) ⟨rfl, rfl, rfl, rfl⟩
  rw [scan_spec hs] at hplain
  obtain ⟨L, hscan, -⟩ := (hplain.resolve_left fun h => h).of_ok
  have hkept := keeps_scan (P := fun L : DiskBspIndex NodeLog => L.pager.written = [])
    (fun id L hL => ?_) (d.logged n) rfl
  · rw [hscan] at hkept
    exact ⟨L, hscan, hkept⟩
  · rw [readPage, stateOf_onPager]
    show (stateOf (NodeLog.onNodes (NodeStore.readPage id) L.pager)).written = []
    unfold NodeLog.onNodes
    cases (NodeStore.readPage id : EStateM Exn NodeMap ParsedPage) L.pager.nodes with
    | ok p m => exact hL
    | error e m => exact hL

/-- Through the cache and the codec a scan meets the pairs of the tree. -/
theorem scanned_paged {d : DiskBspIndex Pager} (h : Pager.HoldsNodes n d.pager)
    (hs : Stands ty t (d.withNodes n)) : scanned d = pairs t := by
  obtain ⟨L, hscan, hwritten⟩ := scan_logged hs
  have hpaged := (Mirrors.scan pagedFollowing).agree (d.logged n) d ⟨h, rfl, rfl, rfl⟩
  rw [hscan] at hpaged
  rcases hpaged with hspoilt | hagree
  · obtain ⟨w, hw, -⟩ := hspoilt
    rw [stateOf_ok, hwritten] at hw
    exact absurd hw List.not_mem_nil
  · obtain ⟨d', hd', -⟩ := hagree.to_ok
    rw [scanned, hd']
    exact List.map_map ..

/-! ### Flushing and opening -/

/-- An index in order and narrow, whose numbers page 0 has room for. -/
structure Filable (ty : DataType) (t : BPlusTree LeafEntry H) (s : DiskBspIndex NodeMap) : Prop where
  stands : Stands ty t s
  narrow : Narrow 255 t
  root_lt : s.rootPage < 2 ^ 32
  first_lt : s.firstLeafPage < 2 ^ 32
  size_lt : s.size < 2 ^ 64

/-- The pages of the file of such an index. -/
structure Filed (ty : DataType) (t : BPlusTree LeafEntry H) (s : DiskBspIndex NodeMap)
    (pages : List Bytes) : Prop extends Filable ty t s where
  sizes : ∀ p ∈ pages, p.length = kPageSize
  nodes : Pager.NodePages s.pager pages
  superblock : pages[0]? = some (superblockImage s.rootPage s.firstLeafPage s.size)

/-- Page 0 is no node. -/
theorem Filable.superblock {s : DiskBspIndex NodeMap} (h : Filable ty t s) :
    Filable ty t { s with pager := s.pager.put 0 none } where
  stands := Stored.stands ⟨h.stands.stored.toLaid.superblock, h.stands.size⟩ h.stands.wellFormed.sorted
  narrow := h.narrow
  root_lt := h.root_lt
  first_lt := h.first_lt
  size_lt := h.size_lt

theorem onPager_ok {σ α : Type} {x : EStateM Exn σ α} {d : DiskBspIndex σ} {a : α} {u : σ}
    (h : x d.pager = .ok a u) : onPager x d = .ok a { d with pager := u } := by
  rw [onPager, h]

/-- What is flushed is in the file, with the numbers of the index in page 0. -/
theorem flush_filed {d d' : DiskBspIndex Pager} (h : Pager.HoldsNodes n d.pager)
    (hs : Filable ty t (d.withNodes n)) (hflush : flush d = .ok () d') :
    ∃ pages, Pager.Represents pages d'.pager ∧ d'.pager.file = pages.flatten ∧
      Filed ty t (d'.withNodes (n.put 0 none)) pages := by
  obtain ⟨pages, hrep, hpages⟩ := h
  obtain ⟨u, hwrite, hu, -⟩ := hrep.writePage (Nat.zero_le _)
    (Pager.superblockImage_length d.rootPage d.firstLeafPage d.size)
  obtain ⟨v, hvflush, hv, hfile, -⟩ := hu.flush
  have hput : Pager.writeSuperblock d.rootPage d.firstLeafPage d.size d.pager = .ok () u := by
    rw [Pager.writeSuperblock, get_bind_apply, if_pos hrep.isOpen, hwrite]
  have hsuper : writeSuperblock d = .ok () { d with pager := u } := onPager_ok hput
  have hfull : flush d = .ok () { d with pager := v } :=
    (bind_ok hsuper).trans (onPager_ok (d := { d with pager := u }) hvflush)
  rw [hfull] at hflush
  cases hflush
  refine ⟨_, hv, hfile, hs.superblock, hv.sizes, ?_, ?_⟩
  · exact hpages.putNone (Nat.zero_le _) (Pager.superblock_no_node _ _ _)
  · have hview := congrFun (Pager.putPage_getElem? (Nat.zero_le pages.length)
      (superblockImage d.rootPage d.firstLeafPage d.size)) 0
    rwa [Function.update_self] at hview

/-- Opening a file finds the index that was flushed there. -/
theorem openFile_filed {s : DiskBspIndex NodeMap} {pages : List Bytes} (h : Filed ty t s pages)
    (path : String) : ∃ d : DiskBspIndex Pager, FileStore.opened path pages.flatten = .ok d ∧
      Pager.HoldsNodes s.pager d.pager ∧ d.withNodes s.pager = s := by
  obtain ⟨u, hopen, hu, -⟩ := Pager.openFile_represents h.sizes (some pages.flatten) false rfl
    (s := {}) rfl
  obtain ⟨v, hread, hv⟩ := hu.readPage h.superblock
  have hopened : Pager.opened (some pages.flatten) false = .ok u := by
    rw [Pager.opened, hopen]
  have hsuper : openSuperblock path (blank u) =
      .ok () ⟨v, s.rootPage, s.firstLeafPage, s.size⟩ := by
    rw [openSuperblock, bind_ok (onPager_ok hread), if_neg, modify_apply,
      Pager.superblock_root _ _ _ h.root_lt, Pager.superblock_first _ _ _ h.first_lt,
      Pager.superblock_size _ _ _ h.size_lt]
    rw [Pager.superblock_magic, Pager.superblock_version]
    simp
  refine ⟨⟨v, s.rootPage, s.firstLeafPage, s.size⟩, ?_, ⟨pages, hv, h.nodes⟩, rfl⟩
  show (do made (openSuperblock path) (.blank (← Pager.opened (some pages.flatten) false))) = _
  rw [hopened, except_ok_bind, made, hsuper]

/-! ### As the index of a table -/

instance : IndexContents (DiskBspIndex Pager) where
  Sound d := ∃ (n : NodeMap) (ty : DataType) (H : Nat) (t : BPlusTree LeafEntry H),
    Pager.HoldsNodes n d.pager ∧ Filable ty t (d.withNodes n)
  holds d key := lookupKey key (scanned d)

/-- A build that returned was given sorted keys an index takes, over any store. -/
theorem sorted_of_built {σ : Type} [FileStore σ] {entries : List (Value × RecordId)}
    {d : DiskBspIndex σ} (h : TableIndex.bulkBuild entries = .ok d) :
    SortedKeys entries ∧ ∀ e ∈ entries, Indexable e.1 := by
  change (FileStore.created >>= fun u : σ => made (bulkBuild (FileStore.budget σ)
    (entries.map fun e => (e.1, UInt64.ofNat e.2))) (.blank u)) = .ok d at h
  cases hcreated : (FileStore.created : Except Exn σ) with
  | error e =>
    rw [hcreated] at h
    cases h
  | ok u =>
    rw [hcreated, except_ok_bind, made] at h
    cases hbuild : bulkBuild (FileStore.budget σ) (entries.map fun e => (e.1, UInt64.ofNat e.2))
        (blank u) with
    | error e d' =>
      rw [hbuild] at h
      cases h
    | ok _ d' =>
      obtain ⟨hindexable, hsorted⟩ := bulkBuild_returned hbuild
      have hpairs := List.pairwise_map.mp hsorted
      exact ⟨hpairs, fun e he => hindexable _ (List.mem_map_of_mem he)⟩

instance : FiledIndex (DiskBspIndex Pager) where
  FileHolds file held := ∃ (ty : DataType) (H : Nat) (t : BPlusTree LeafEntry H)
    (s : DiskBspIndex NodeMap) (pages : List Bytes), Filed ty t s pages ∧ file = pages.flatten ∧
      held = fun key => lookupKey key (pairs t)
  sound_open d hsound := by
    obtain ⟨n, ty, H, t, h, -⟩ := hsound
    exact h.isOpen
  flush_holds d d' hsound hflush := by
    obtain ⟨n, ty, H, t, h, hs⟩ := hsound
    obtain ⟨pages, hrep, hfile, hfiled⟩ := flush_filed h hs hflush
    have hnodes : Pager.HoldsNodes (n.put 0 none) d'.pager := ⟨pages, hrep, hfiled.nodes⟩
    have hbefore : scanned d = pairs t := scanned_paged h hs.stands
    have hafter : scanned d' = pairs t := scanned_paged hnodes hfiled.stands
    refine ⟨⟨_, ty, H, t, hnodes, hfiled.toFilable⟩, ?_, ty, H, t, _, pages, hfiled, hfile, ?_⟩
    · funext key
      show lookupKey key (scanned d') = lookupKey key (scanned d)
      rw [hbefore, hafter]
    · funext key
      show lookupKey key (scanned d) = _
      rw [hbefore]
  open_holds path file held hfile := by
    obtain ⟨ty, H, t, s, pages, hfiled, rfl, rfl⟩ := hfile
    obtain ⟨d, hopen, hnodes, hover⟩ := openFile_filed hfiled path
    have hstands : Filable ty t (d.withNodes s.pager) := hover ▸ hfiled.toFilable
    refine ⟨d, hopen, ⟨_, ty, H, t, hnodes, hstands⟩, ?_⟩
    funext key
    show lookupKey key (scanned d) = _
    rw [scanned_paged hnodes hstands.stands]
  build_sorted _ _ := sorted_of_built

end DiskBspIndex
end CwDb.Storage
