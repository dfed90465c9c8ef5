import CwDb.Storage.Index.Store

/-! Searching the index: descents, the two binary searches, iterators.

A descent picks, in an inner node, the child after the last separator not greater
than the key, looking at the first `key_count` separators. The count is one byte
of the page, so a node of more than 255 separators is searched in part. -/
namespace CwDb.Storage.DiskBspIndex
open Foundation

/-- The key bytes the index compares: `key.data()` up to `key_len`. -/
def keyBytes (e : LeafEntry) : Bytes := e.key.take e.keyLen.toNat

def cmpKeyBytes (e : LeafEntry) (b : Value) : Except Exn Int := do
  let (va, _) ← decodeValue (keyBytes e)
  return (va.compare b).1

def compareEntries (a b : LeafEntry) : Except Exn Int :=
  compareEncodedKeys (keyBytes a) (keyBytes b)

def keysEqual (a b : LeafEntry) : Except Exn Bool := do
  return (← compareEntries a b) == 0

/-! ### Slots of a leaf -/

/-- The binary search of both bounds: `goRight` says when the middle entry is
left of the slot. The fuel is the length of the interval. -/
def boundLoop (goRight : Int → Bool) (entries : List LeafEntry) (key : Value) :
    Nat → Nat → Nat → Except Exn Nat
  | 0, lo, _ => .ok lo
  | fuel + 1, lo, hi =>
    if lo < hi then do
      let mid := (lo + hi) / 2
      let c ← cmpKeyBytes (entries.getD mid default) key
      if goRight c then boundLoop goRight entries key fuel (mid + 1) hi
      else boundLoop goRight entries key fuel lo mid
    else .ok lo

def lowerBoundSlot (p : ParsedPage) (key : Value) : Except Exn Nat :=
  boundLoop (fun c => c < 0) p.leafEntries key p.leafEntries.length 0 p.leafEntries.length

def upperBoundSlot (p : ParsedPage) (key : Value) : Except Exn Nat :=
  boundLoop (fun c => c ≤ 0) p.leafEntries key p.leafEntries.length 0 p.leafEntries.length

/-! ### Descents -/

/-- The loop over the separators: after it, `child` is one past the last separator
not greater than the key. -/
def childLoop (key : Value) : List LeafEntry → Nat → Nat → Except Exn Nat
  | [], _, child => .ok child
  | k :: ks, i, child => do
    let c ← cmpKeyBytes k key
    childLoop key ks (i + 1) (if c ≤ 0 then i + 1 else child)

def childSlot (p : ParsedPage) (key : Value) : Except Exn Nat :=
  childLoop key (p.innerKeys.take p.keyCount.toNat) 0 0

section Descents
variable {σ : Type} [NodeStore σ]

/-- The leaf a key belongs in, with the pages passed on the way, innermost first. -/
def findLeafLoop (key : Value) : Nat → PageId → List PageId → IndexM σ (ParsedPage × List PageId)
  | 0, _, _ => throw .diverges
  | fuel + 1, page, path => do
    let p ← readPage page
    if p.type = .leaf then return (p, page :: path)
    else
      let child ← fromExcept (childSlot p key)
      match p.children[child]? with
      | none => throw (.runtimeError "Corrupt inner index page")
      | some next => findLeafLoop key fuel next (page :: path)

/-- The path of the result is innermost first: its head is the leaf's page
(`path.back()`), its tail the parent's path. -/
def findLeaf (key : Value) : IndexM σ (ParsedPage × List PageId) := do
  let s ← get
  findLeafLoop key (← descentFuel) s.rootPage []

def subtreeMinLoop : Nat → PageId → IndexM σ LeafEntry
  | 0, _ => throw .diverges
  | fuel + 1, page => do
    let p ← readPage page
    if p.type = .leaf then
      match p.leafEntries with
      | [] => throw (.runtimeError "Empty leaf in index subtree")
      | e :: _ => return e
    else
      match p.children with
      | [] => throw (.runtimeError "Empty internal index node")
      | c :: _ => subtreeMinLoop fuel c

def subtreeMinEntry (page : PageId) : IndexM σ LeafEntry := do
  subtreeMinLoop (← descentFuel) page

def leftmostLeafLoop : Nat → PageId → IndexM σ PageId
  | 0, _ => throw .diverges
  | fuel + 1, page => do
    let p ← readPage page
    if p.type = .leaf then return p.pageId
    else
      match p.children with
      | [] => throw (.runtimeError "Empty internal index node")
      | c :: _ => leftmostLeafLoop fuel c

def leftmostLeaf (page : PageId) : IndexM σ PageId := do
  leftmostLeafLoop (← descentFuel) page

end Descents

/-! ### Iterators -/

structure ConstIterator where
  page : PageId := 0
  slot : Nat := 0
  key : Value := .null
  rid : UInt64 := 0
  atEnd : Bool := true
  deriving DecidableEq, Repr

/-- The pair an iterator is on, none at the end. -/
def ConstIterator.here (it : ConstIterator) : Option (Value × UInt64) :=
  if it.atEnd then none else some (it.key, it.rid)

/-- The iterator past the last entry. -/
def endIterator : ConstIterator := {}

/-- The iterator on an entry of a leaf that was read. -/
def iteratorOn (p : ParsedPage) (page : PageId) (slot : Nat) : Except Exn ConstIterator :=
  match p.leafEntries[slot]? with
  | none => .ok { page, slot, atEnd := true }
  | some e => do
    let (key, _) ← decodeValue (keyBytes e)
    return { page, slot, key, rid := e.rid, atEnd := false }

section Iterators
variable {σ : Type} [NodeStore σ]

/-- The constructor: it reads the page again. -/
def iteratorAt (page : PageId) (slot : Nat) : IndexM σ ConstIterator := do
  let p ← readPage page
  fromExcept (iteratorOn p page slot)

/-- `operator++`: the next slot, or the first of the next leaf. -/
def ConstIterator.next (it : ConstIterator) : IndexM σ ConstIterator :=
  if it.atEnd then return it
  else do
    let p ← readPage it.page
    if it.slot + 1 < p.leafEntries.length then fromExcept (iteratorOn p it.page (it.slot + 1))
    else if p.nextLeaf = 0 then return { it with slot := it.slot + 1, atEnd := true }
    else iteratorAt p.nextLeaf 0

def leafFind (page : PageId) (key : Value) (exact : Bool) : IndexM σ ConstIterator := do
  let p ← readPage page
  let slot ← fromExcept (lowerBoundSlot p key)
  match p.leafEntries[slot]? with
  | some e =>
    let c ← fromExcept (cmpKeyBytes e key)
    if c = 0 then iteratorAt page slot
    else if !exact && c > 0 then iteratorAt page slot
    else if exact then return endIterator
    else iteratorAt page slot
  | none =>
    if exact then return endIterator
    else if p.nextLeaf ≠ 0 then iteratorAt p.nextLeaf 0
    else return endIterator

def leafLower (page : PageId) (key : Value) : IndexM σ ConstIterator := do
  let p ← readPage page
  let slot ← fromExcept (lowerBoundSlot p key)
  if slot < p.leafEntries.length then iteratorAt page slot
  else if p.nextLeaf ≠ 0 then iteratorAt p.nextLeaf 0
  else return endIterator

def find (key : Value) : IndexM σ ConstIterator := do
  let (leaf, _) ← findLeaf key
  leafFind leaf.pageId key true

def lowerBound (key : Value) : IndexM σ ConstIterator := do
  let (leaf, _) ← findLeaf key
  leafLower leaf.pageId key

def upperBound (key : Value) : IndexM σ ConstIterator := do
  let (leaf, _) ← findLeaf key
  let slot ← fromExcept (upperBoundSlot leaf key)
  if slot < leaf.leafEntries.length then iteratorAt leaf.pageId slot
  else if leaf.nextLeaf ≠ 0 then iteratorAt leaf.nextLeaf 0
  else return endIterator

def begin : IndexM σ ConstIterator := do
  let s ← get
  if s.size = 0 then return endIterator
  else iteratorAt s.firstLeafPage 0

/-- Every step moves to a place not yet seen, and a page has fewer entries than
bytes: a scan that takes more steps than that never ends. -/
def scanFuel : IndexM σ Nat := do
  let s ← get
  return (NodeStore.pageCount s.pager + 1) * kPageSize

def scanLoop : Nat → ConstIterator → IndexM σ (List (Value × UInt64))
  | 0, _ => throw .diverges
  | fuel + 1, it =>
    if it.atEnd then return []
    else do
      let rest ← scanLoop fuel (← it.next)
      return (it.key, it.rid) :: rest

/-- The pairs met from `begin()` to `end()`. -/
def scan : IndexM σ (List (Value × UInt64)) := do
  let it ← begin
  scanLoop (← scanFuel) it

end Iterators
end CwDb.Storage.DiskBspIndex
