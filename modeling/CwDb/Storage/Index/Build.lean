import CwDb.Storage.Index.Erase
import CwDb.Storage.TableIndex

/-! New indexes: the empty one, and one built bottom-up from a sorted list.

`bulkBuild` cuts the list greedily into leaves, links them, and then cuts each
level greedily into inner nodes, until one node is left. The last node of a level
may have a single child. Both start from a store just opened with `create`.

With them the index is all a table asks of it: `FileStore` is a store that comes
from a file, and an index over one is a `TableIndex`. -/
namespace CwDb.Storage.DiskBspIndex
open Foundation

variable {σ : Type} [NodeStore σ]

/-- An index object over a page file, before anything was written. -/
def blank (pager : σ) : DiskBspIndex σ := ⟨pager, 0, 0, 0⟩

def createEmpty : IndexM σ Unit := do
  onPager NodeStore.reservePage
  let root ← allocateNodePage
  modify fun s => { s with rootPage := root, firstLeafPage := root, size := 0 }
  writePage { pageId := root, type := .leaf, nextLeaf := 0 }
  writeSuperblock

/-! ### The guard -/

def kPerEntryOverhead : Nat := 96
def kDefaultPageCacheCapacity : Nat := 64

/-- `sizeof(std::pair<Value, std::uint64_t>)`. -/
def pairBytes : Nat := 24

def estimateBulkBuildBytes (entryCount totalEncodedKeyBytes : Nat) : Nat :=
  entryCount * kPerEntryOverhead + totalEncodedKeyBytes * 2 + entryCount * pairBytes +
    kDefaultPageCacheCapacity * kPageSize

/-- The first entry whose key the guard refuses. -/
def checkBulkKeys : List (Value × UInt64) → Except Exn Unit
  | [] => return
  | (key, rid) :: rest =>
    if key.isNull then
      .error (.runtimeError ("bulk_build: NULL index key for record id " ++ toString rid))
    else if encodedValueSize key > kMaxIndexKeyBytes then
      .error (.runtimeError ("bulk_build: index key too large for record id " ++ toString rid))
    else checkBulkKeys rest

/-- What the guard goes by: the override of the environment, or else the memory that is
available, where that is known. -/
inductive MemoryBudget where
  | unknown
  | override (bytes : Nat)
  | available (bytes : Nat)

namespace MemoryBudget

/-- The budget in bytes, if there is one: a quarter of the available memory. -/
def limit : MemoryBudget → Option Nat
  | unknown => none
  | override bytes => some bytes
  | available bytes => if bytes = 0 then none else some (bytes / 4)

/-- How the message on an exceeded budget ends. -/
def remark : MemoryBudget → String
  | available bytes => " (25% of available " ++ toString bytes ++ " bytes)"
  | _ => ""

end MemoryBudget

def validateBulkBuildInput (budget : MemoryBudget) (entries : List (Value × UInt64)) :
    Except Exn Unit := do
  checkBulkKeys entries
  let need := estimateBulkBuildBytes entries.length (entries.map fun e => encodedValueSize e.1).sum
  match budget.limit with
  | none => return
  | some limit =>
    if need > limit then
      .error (.runtimeError ("bulk_build: estimated memory " ++ toString need ++
        " bytes exceeds budget " ++ toString limit ++ " bytes" ++ budget.remark))
    else return

/-! ### The leaves -/

def emitLeaf (chunk : List LeafEntry) : IndexM σ PageId := do
  let pid ← allocateNodePage
  writePage { pageId := pid, type := .leaf, nextLeaf := 0, leafEntries := chunk }
  return pid

/-- The entries in chunks that fit, each written as a leaf. -/
def emitLeaves : List LeafEntry → List LeafEntry → Nat → IndexM σ (List PageId)
  | [], chunk, _ =>
    if chunk.isEmpty then return []
    else do
      let pid ← emitLeaf chunk
      return [pid]
  | entry :: rest, chunk, chunkBytes =>
    let need := leafEntryBytes entry.keyLen
    if !chunk.isEmpty && chunkBytes + need > kPageSize then do
      let pid ← emitLeaf chunk
      let pids ← emitLeaves rest [entry] (kLeafHeader + need)
      return pid :: pids
    else emitLeaves rest (chunk ++ [entry]) (chunkBytes + need)

def linkLeaves : List PageId → IndexM σ Unit
  | a :: b :: rest => do
    let p ← readPage a
    writePage { p with nextLeaf := b }
    linkLeaves (b :: rest)
  | _ => return

/-! ### The inner levels -/

def separatorKeyForPage (page : PageId) : IndexM σ LeafEntry := do
  let p ← readPage page
  if p.type = .leaf then
    match p.leafEntries with
    | [] => throw (.runtimeError "Cannot take separator from empty leaf")
    | e :: _ => return e
  else subtreeMinEntry page

/-- The children and separators of one inner node, and the pages left over. -/
def gatherGroup : List PageId → List PageId → List LeafEntry →
    IndexM σ (List PageId × List LeafEntry × List PageId)
  | [], children, keys => return (children, keys, [])
  | page :: rest, children, keys => do
    let sep ← separatorKeyForPage page
    let need := leafEntryBytes sep.keyLen + 4
    let pageBytes := innerPayloadBytes keys children.length
    if !keys.isEmpty && pageBytes + need > kPageSize then return (children, keys, page :: rest)
    else gatherGroup rest (children ++ [page]) (keys ++ [sep])

/-- One level of inner nodes; the fuel is the number of pages below. -/
def buildLevel : Nat → List PageId → IndexM σ (List PageId)
  | _, [] => return []
  | 0, _ :: _ => throw .diverges
  | fuel + 1, page :: level => do
    let (children, keys, rest) ← gatherGroup level [page] []
    if children.length = 1 && !rest.isEmpty then
      throw (.runtimeError "Inner index page cannot fit a separator key during bulk build")
    else
      let inner ← allocateNodePage
      writePage { pageId := inner, type := .inner, children, innerKeys := keys
                  keyCount := UInt8.ofNat keys.length }
      let inners ← buildLevel fuel rest
      return inner :: inners

def buildLevels : Nat → List PageId → IndexM σ PageId
  | _, [root] => return root
  | 0, _ => throw .diverges
  | fuel + 1, level => do
    let next ← buildLevel level.length level
    buildLevels fuel next

def bulkBuildFromFlat (flat : List LeafEntry) : IndexM σ Unit := do
  onPager NodeStore.reservePage
  modify fun s => { s with size := flat.length }
  if flat.isEmpty then
    let root ← allocateNodePage
    modify fun s => { s with rootPage := root, firstLeafPage := root }
    writePage { pageId := root, type := .leaf, nextLeaf := 0 }
  else
    let leafPages ← emitLeaves flat [] kLeafHeader
    linkLeaves leafPages
    modify fun s => { s with firstLeafPage := leafPages.headD 0 }
    let root ← buildLevels leafPages.length leafPages
    modify fun s => { s with rootPage := root }
  writeSuperblock
  onPager NodeStore.flush

/-! ### bulk_build -/

def makeEntries : List (Value × UInt64) → Except Exn (List LeafEntry)
  | [] => return []
  | (key, rid) :: rest => do
    let e ← makeEntry key rid
    let es ← makeEntries rest
    return e :: es

def checkStrictlyIncreasing : List LeafEntry → Except Exn Unit
  | a :: b :: rest => do
    if (← compareEntries a b) ≥ 0 then
      .error (.runtimeError
        "bulk_build requires strictly increasing unique keys (sort input first)")
    else checkStrictlyIncreasing (b :: rest)
  | _ => return

def bulkBuild (budget : MemoryBudget) (entries : List (Value × UInt64)) : IndexM σ Unit := do
  fromExcept (validateBulkBuildInput budget entries)
  let flat ← fromExcept (makeEntries entries)
  fromExcept (checkStrictlyIncreasing flat)
  bulkBuildFromFlat flat

/-! ### flush -/

def flush : IndexM σ Unit := do
  writeSuperblock
  onPager NodeStore.flush

/-- The object after an operation that made it, or the throw. -/
def made (x : IndexM σ Unit) (s : DiskBspIndex σ) : Except Exn (DiskBspIndex σ) :=
  match x s with
  | .ok _ s => .ok s
  | .error e _ => .error e

end CwDb.Storage.DiskBspIndex

namespace CwDb.Storage

/-- A store kept in a file. -/
class FileStore (σ : Type) extends NodeStore σ where
  File : Type
  /-- The store over a new file. -/
  created : Except Exn σ
  /-- What a bulk build may use of the memory. -/
  budget : DiskBspIndex.MemoryBudget
  isOpen : σ → Bool
  /-- The index in a file, given the file's path for messages. -/
  opened : String → File → Except Exn (DiskBspIndex σ)
  /-- The file as it is now, without what is only cached. -/
  file : DiskBspIndex σ → File

instance : FileStore NodeMap where
  File := DiskBspIndex NodeMap
  created := .ok NodeMap.empty
  budget := .unknown
  isOpen _ := true
  opened _ s := .ok s
  file s := s

instance {σ : Type} [FileStore σ] : TableIndex (DiskBspIndex σ) where
  File := FileStore.File σ
  Cursor := DiskBspIndex.ConstIterator
  insert key id := DiskBspIndex.insert key (UInt64.ofNat id)
  erase := DiskBspIndex.erase
  find := DiskBspIndex.find
  lowerBound := DiskBspIndex.lowerBound
  upperBound := DiskBspIndex.upperBound
  begin := DiskBspIndex.begin
  next := DiskBspIndex.ConstIterator.next
  here it := it.here.map fun e => (e.1, e.2.toNat)
  scanFuel s := (NodeStore.pageCount s.pager + 1) * kPageSize
  flush := DiskBspIndex.flush
  isOpen s := FileStore.isOpen s.pager
  createEmpty := do DiskBspIndex.made DiskBspIndex.createEmpty (.blank (← FileStore.created))
  openFile := FileStore.opened
  bulkBuild entries := do
    DiskBspIndex.made
      (DiskBspIndex.bulkBuild (FileStore.budget σ) (entries.map fun e => (e.1, UInt64.ofNat e.2)))
      (.blank (← FileStore.created))
  file := FileStore.file

end CwDb.Storage
