import CwDb.Storage.Page
import CwDb.Foundation.Outcome

/-! What an index stands on.

`NodeStore` is the part of the page file the index uses: read a node, write one,
allocate a page, write the superblock. `DiskBspIndex σ` is the index over such a
store, with the three numbers it keeps beside the pages. Its operations run in
`IndexM`, where a throw leaves the pages written so far.

`NodeMap` is the store that gives nodes back as they were written: no codec and
no cache stand between. A page that was allocated and not yet written is all
zeros and fails the magic check, exactly as on disk; page 0 holds the superblock
and is no node either. Page ids are natural numbers: the limit of 2^32 pages, a
file of 16 TiB, is not modelled. -/
namespace CwDb.Storage
open Foundation

class NodeStore (σ : Type) where
  readPage : PageId → EStateM Exn σ ParsedPage
  writePage : ParsedPage → EStateM Exn σ Unit
  allocateNodePage : EStateM Exn σ PageId
  /-- Page 0, all zeros. -/
  reservePage : EStateM Exn σ Unit
  /-- Root page, first leaf page and size, into page 0. -/
  writeSuperblock : PageId → PageId → Nat → EStateM Exn σ Unit
  /-- Everything cached, to the file. -/
  flush : EStateM Exn σ Unit
  pageCount : σ → Nat

structure DiskBspIndex (σ : Type) where
  pager : σ
  rootPage : PageId
  firstLeafPage : PageId
  size : Nat

/-- Index code: it may throw, and keeps what it did before. -/
abbrev IndexM (σ : Type) := EStateM Exn (DiskBspIndex σ)

namespace DiskBspIndex
variable {σ α : Type}

/-- A page operation, run on the index's own store. -/
def onPager (x : EStateM Exn σ α) : IndexM σ α := fun s =>
  match x s.pager with
  | .ok a t => .ok a { s with pager := t }
  | .error e t => .error e { s with pager := t }

section Ops
variable [NodeStore σ]

def readPage (id : PageId) : IndexM σ ParsedPage := onPager (NodeStore.readPage id)

def writePage (page : ParsedPage) : IndexM σ Unit := onPager (NodeStore.writePage page)

def allocateNodePage : IndexM σ PageId := onPager NodeStore.allocateNodePage

def writeSuperblock : IndexM σ Unit := do
  let s ← get
  onPager (NodeStore.writeSuperblock s.rootPage s.firstLeafPage s.size)

/-- Bound on the pages a descent can visit: one that goes on longer has come back
to a page and never ends. -/
def descentFuel : IndexM σ Nat := do
  let s ← get
  return NodeStore.pageCount s.pager + 1

end Ops
end DiskBspIndex

/-! ### Nodes, given back as written -/

structure NodeMap where
  pages : PageId → Option ParsedPage
  count : Nat

namespace NodeMap

/-- A file with no page. -/
def empty : NodeMap := ⟨fun _ => none, 0⟩

/-- Page `id` holds the node (or, with none, no node) from now on. -/
def put (s : NodeMap) (id : PageId) (page : Option ParsedPage) : NodeMap :=
  ⟨fun i => if i = id then page else s.pages i, max s.count (id + 1)⟩

def readPage (id : PageId) : EStateM Exn NodeMap ParsedPage := fun s =>
  if id < s.count then
    match s.pages id with
    | some p => .ok p s
    | none => .error (.runtimeError "Corrupt index page") s
  else .error (.runtimeError ("Read past end of page file: page " ++ toString id)) s

/-- The pages `write_page` refuses. -/
def overflows (page : ParsedPage) : Bool :=
  if page.type = .leaf then leafOverflow page.leafEntries
  else innerOverflow page.innerKeys page.children

def writePage (page : ParsedPage) : EStateM Exn NodeMap Unit := fun s =>
  if overflows page then
    .error (.runtimeError (if page.type = .leaf then "Leaf index page overflow"
      else "Inner index page overflow")) s
  else .ok () (s.put page.pageId (some page.stored))

def allocateNodePage : EStateM Exn NodeMap PageId := fun s =>
  let s := if s.count = 0 then s.put 0 none else s
  .ok s.count (s.put s.count none)

instance : NodeStore NodeMap where
  readPage := readPage
  writePage := writePage
  allocateNodePage := allocateNodePage
  reservePage := fun s => .ok () (s.put 0 none)
  writeSuperblock _ _ _ := fun s => .ok () (s.put 0 none)
  flush := pure ()
  pageCount := count

@[simp] theorem put_pages_self (s : NodeMap) (id : PageId) (page : Option ParsedPage) :
    (s.put id page).pages id = page := by
  simp [put]

@[simp] theorem put_pages_ne (s : NodeMap) {id i : PageId} (page : Option ParsedPage)
    (h : i ≠ id) : (s.put id page).pages i = s.pages i := by
  simp [put, h]

@[simp] theorem put_count (s : NodeMap) (id : PageId) (page : Option ParsedPage) :
    (s.put id page).count = max s.count (id + 1) := rfl

end NodeMap
end CwDb.Storage
