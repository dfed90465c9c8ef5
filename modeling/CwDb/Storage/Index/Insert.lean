import CwDb.Storage.Index.Search

/-! Inserting a key.

A leaf that overflows first tries to give an entry to a sibling, then splits with
a sibling into three leaves, then (without siblings) into halves; an inner node
that overflows does the same with its children. The parent gets its separators
from the pages of its children (`rebuildInternalKeys`), so they are written
first.

`splitInternal` climbs the path from a node to the root. Paths are kept innermost
first: `path.back()` of the source is the head, the parent's path the tail. The
functions that call `split_internal` on the parent take that call as a parameter
(`splitParent`), so that the recursion is on the path. Nodes are passed by value;
the source passes them by reference and does not look at them after the call. -/
namespace CwDb.Storage.DiskBspIndex
open Foundation

variable {σ : Type} [NodeStore σ]

/-! ### Separators from the children's pages -/

def subtreeMins : List PageId → IndexM σ (List LeafEntry)
  | [] => return []
  | c :: cs => do
    let e ← subtreeMinEntry c
    let es ← subtreeMins cs
    return e :: es

def rebuildInternalKeys (node : ParsedPage) : IndexM σ ParsedPage :=
  if node.type = .leaf then throw (.logicError "Leaf node has no internal separators")
  else
    match node.children with
    | [] => return { node with innerKeys := [], keyCount := 0 }
    | _ :: rest => do
      let keys ← subtreeMins rest
      return { node with innerKeys := keys, keyCount := UInt8.ofNat keys.length }

/-- The climb of `propagate_subtree_min_change`, over the ancestors' pages. -/
def propagateLoop (currentPageId : PageId) (currentMin : LeafEntry) : List PageId → IndexM σ Unit
  | [] => return
  | parentId :: above => do
    let parent ← readPage parentId
    if parent.type = .leaf then throw (.logicError "Leaf cannot be parent")
    else
      match parent.children.idxOf? currentPageId with
      | none => return
      | some childIndex =>
        if childIndex > 0 then
          let keys := parent.innerKeys.set (childIndex - 1) currentMin
          writePage { parent with innerKeys := keys, keyCount := UInt8.ofNat keys.length }
        else do
          let min ← subtreeMinEntry parent.pageId
          propagateLoop parent.pageId min above

def propagateSubtreeMinChange (pageId : PageId) (path : List PageId) : IndexM σ Unit :=
  match path with
  | cur :: parentId :: above =>
    if cur ≠ pageId then return
    else do
      let min ← subtreeMinEntry pageId
      propagateLoop pageId min (parentId :: above)
  | _ => return

/-! ### Splits -/

/-- Thirds, the remainder going to the front. -/
def threeWayCounts (total : Nat) : Nat × Nat × Nat :=
  let first := (total + 2) / 3
  let second := (total - first + 1) / 2
  (first, second, total - first - second)

/-- The three runs a list is dealt into. -/
def threeWayRuns {α : Type} (xs : List α) : List α × List α × List α :=
  let (first, second, _) := threeWayCounts xs.length
  (xs.take first, (xs.drop first).take second, xs.drop (first + second))

def insertIntoParent (splitParent : ParsedPage → IndexM σ Unit) (left : ParsedPage)
    (separator : LeafEntry) (right : ParsedPage) (leftPath : List PageId) : IndexM σ Unit :=
  match leftPath with
  | [] => throw (.logicError "Invalid path to left node")
  | cur :: parentPath =>
    if cur ≠ left.pageId then throw (.logicError "Invalid path to left node")
    else do
      writePage left
      writePage right
      match parentPath with
      | [] =>
        let newRootId ← allocateNodePage
        writePage { pageId := newRootId, type := .inner, keyCount := 1
                    innerKeys := [separator], children := [left.pageId, right.pageId] }
        modify fun s => { s with rootPage := newRootId }
      | parentId :: _ =>
        let parent ← readPage parentId
        if parent.type = .leaf then throw (.logicError "Leaf cannot be parent")
        else
          match parent.children.idxOf? left.pageId with
          | none => throw (.logicError "Parent missing child")
          | some childIndex =>
            let keys := parent.innerKeys.insertIdx childIndex separator
            let children := parent.children.insertIdx (childIndex + 1) right.pageId
            let parent ← rebuildInternalKeys
              { parent with innerKeys := keys, children, keyCount := UInt8.ofNat keys.length }
            if !innerOverflow parent.innerKeys parent.children then writePage parent
            else splitParent parent

/-! ### Leaves that overflow -/

/-- Moves the leaf's last entry to its right sibling, if both then fit. -/
def tryGiveToRightLeaf (leaf parent : ParsedPage) (childIndex : Nat) : IndexM σ Bool :=
  if childIndex + 1 ≥ parent.children.length then return false
  else do
    let right ← readPage (parent.children.getD (childIndex + 1) 0)
    if right.type ≠ .leaf then return false
    else
      match leaf.leafEntries.getLast? with
      | none => return false
      | some moved =>
        let leaf := { leaf with leafEntries := leaf.leafEntries.dropLast }
        let right := { right with leafEntries := moved :: right.leafEntries }
        if leaf.leafEntries.isEmpty then return false
        else if leafOverflow right.leafEntries || leafOverflow leaf.leafEntries then return false
        else
          writePage leaf
          writePage right
          let parent ← rebuildInternalKeys parent
          writePage parent
          return true

/-- Moves the left sibling's last entry to the leaf, if both then fit. -/
def tryGiveToLeftLeaf (leaf parent : ParsedPage) (childIndex : Nat) : IndexM σ Bool :=
  if childIndex = 0 || leaf.leafEntries.isEmpty then return false
  else do
    let left ← readPage (parent.children.getD (childIndex - 1) 0)
    if left.type ≠ .leaf then return false
    else
      match left.leafEntries.getLast? with
      | none => return false
      | some moved =>
        let left := { left with leafEntries := left.leafEntries.dropLast }
        let leaf := { leaf with leafEntries := moved :: leaf.leafEntries }
        if left.leafEntries.isEmpty then return false
        else if leafOverflow leaf.leafEntries || leafOverflow left.leafEntries then return false
        else
          writePage leaf
          writePage left
          let parent ← rebuildInternalKeys parent
          writePage parent
          return true

/-- Insertion into a sorted run, before the entries that are not less. -/
def sortInsert (e : LeafEntry) : List LeafEntry → Except Exn (List LeafEntry)
  | [] => return [e]
  | x :: xs => do
    if (← compareEntries x e) < 0 then
      let rest ← sortInsert e xs
      return x :: rest
    else return e :: x :: xs

/-- `std::sort` by `compare_encoded_keys`, which throws on a key that does not
decode. -/
def sortEntries : List LeafEntry → Except Exn (List LeafEntry)
  | [] => return []
  | e :: es => do
    let rest ← sortEntries es
    sortInsert e rest

def splitLeafPair (splitParent : ParsedPage → IndexM σ Unit) (left right parent : ParsedPage)
    (parentIndex : Nat) : IndexM σ Unit := do
  let items ← fromExcept (sortEntries (left.leafEntries ++ right.leafEntries))
  let (first, second, third) := threeWayRuns items
  let middleId ← allocateNodePage
  if first.isEmpty || second.isEmpty || third.isEmpty then
    throw (.logicError "Leaf pair split produced empty node")
  else
    writePage { left with leafEntries := first, nextLeaf := middleId }
    writePage { pageId := middleId, type := .leaf, leafEntries := second, nextLeaf := right.pageId }
    writePage { right with leafEntries := third }
    let children := parent.children.insertIdx (parentIndex + 1) middleId
    let parent ← rebuildInternalKeys { parent with children }
    if !innerOverflow parent.innerKeys parent.children then writePage parent
    else splitParent parent

/-- The end of `split_leaf`, for a leaf without siblings: two halves. -/
def splitLeafHalves (splitParent : ParsedPage → IndexM σ Unit) (leaf : ParsedPage)
    (path : List PageId) : IndexM σ Unit := do
  let rightId ← allocateNodePage
  let splitAt := leaf.leafEntries.length / 2
  let right : ParsedPage :=
    { pageId := rightId, type := .leaf, nextLeaf := leaf.nextLeaf
      leafEntries := leaf.leafEntries.drop splitAt }
  let leaf := { leaf with leafEntries := leaf.leafEntries.take splitAt, nextLeaf := rightId }
  match right.leafEntries with
  | [] => throw (.logicError "Leaf split produced empty right node")
  | separator :: _ => insertIntoParent splitParent leaf separator right path

/-! ### Inner nodes that overflow -/

def splitInternalPair (splitParent : ParsedPage → IndexM σ Unit) (left right parent : ParsedPage)
    (parentIndex : Nat) : IndexM σ Unit := do
  let (first, second, third) := threeWayRuns (left.children ++ right.children)
  let left ← rebuildInternalKeys { left with children := first }
  let right ← rebuildInternalKeys { right with children := third }
  if innerOverflow left.innerKeys left.children || innerOverflow right.innerKeys right.children then
    throw (.lengthError "Redistributed internal siblings do not fit")
  else
    let middleId ← allocateNodePage
    let middle ← rebuildInternalKeys { pageId := middleId, type := .inner, children := second }
    writePage left
    writePage middle
    writePage right
    let children := parent.children.insertIdx (parentIndex + 1) middleId
    let parent ← rebuildInternalKeys { parent with children }
    if !innerOverflow parent.innerKeys parent.children then writePage parent
    else splitParent parent

/-- Moves the right sibling's first child to the node, if both then fit. -/
def tryRedistributeInternalWithRight (node parent : ParsedPage) (childIndex : Nat)
    (parentPath : List PageId) : IndexM σ Bool :=
  if childIndex + 1 ≥ parent.children.length then return false
  else do
    let right ← readPage (parent.children.getD (childIndex + 1) 0)
    if right.type = .leaf then return false
    else
      match right.children with
      | moved :: rest =>
        if rest.isEmpty then return false
        else
          let node ← rebuildInternalKeys { node with children := node.children ++ [moved] }
          let right ← rebuildInternalKeys { right with children := rest }
          if innerOverflow node.innerKeys node.children ||
              innerOverflow right.innerKeys right.children then return false
          else
            writePage node
            writePage right
            let parent ← rebuildInternalKeys parent
            writePage parent
            propagateSubtreeMinChange parent.pageId parentPath
            return true
      | [] => return false

/-- Moves the left sibling's last child to the node, if both then fit. -/
def tryRedistributeInternalWithLeft (node parent : ParsedPage) (childIndex : Nat)
    (parentPath : List PageId) : IndexM σ Bool :=
  if childIndex = 0 then return false
  else do
    let left ← readPage (parent.children.getD (childIndex - 1) 0)
    if left.type = .leaf then return false
    else if left.children.length ≤ 1 then return false
    else
      match left.children.getLast? with
      | some moved =>
        let node ← rebuildInternalKeys { node with children := moved :: node.children }
        let left ← rebuildInternalKeys { left with children := left.children.dropLast }
        if innerOverflow node.innerKeys node.children ||
            innerOverflow left.innerKeys left.children then return false
        else
          writePage node
          writePage left
          let parent ← rebuildInternalKeys parent
          writePage parent
          propagateSubtreeMinChange parent.pageId parentPath
          return true
      | none => return false

/-- The end of `split_internal`, for a node without siblings: two halves. The
right half is only allocated when its separator is read from its page. -/
def splitInternalHalves (splitParent : ParsedPage → IndexM σ Unit) (node : ParsedPage)
    (path : List PageId) : IndexM σ Unit := do
  let rightId ← allocateNodePage
  let splitAt := node.children.length / 2
  let right : ParsedPage :=
    { pageId := rightId, type := .inner, children := node.children.drop splitAt }
  let node ← rebuildInternalKeys { node with children := node.children.take splitAt }
  let right ← rebuildInternalKeys right
  if right.children.isEmpty then
    throw (.logicError "Internal split produced empty right child")
  else
    let separator ← subtreeMinEntry right.pageId
    insertIntoParent splitParent node separator right path

def splitInternal : List PageId → ParsedPage → IndexM σ Unit
  | cur :: parentId :: above, node => do
    let parent ← readPage parentId
    if parent.type = .leaf then throw (.logicError "Leaf cannot be parent")
    else
      match parent.children.idxOf? node.pageId with
      | none => throw (.logicError "Parent missing child")
      | some childIndex =>
        let splitParent := splitInternal (parentId :: above)
        if ← tryRedistributeInternalWithRight node parent childIndex (parentId :: above) then return
        else if ← tryRedistributeInternalWithLeft node parent childIndex (parentId :: above) then
          return
        else if childIndex + 1 < parent.children.length then
          let right ← readPage (parent.children.getD (childIndex + 1) 0)
          if right.type = .leaf then throw (.logicError "Expected internal sibling")
          else splitInternalPair splitParent node right parent childIndex
        else if childIndex > 0 then
          let left ← readPage (parent.children.getD (childIndex - 1) 0)
          if left.type = .leaf then throw (.logicError "Expected internal sibling")
          else splitInternalPair splitParent left node parent (childIndex - 1)
        else splitInternalHalves splitParent node (cur :: parentId :: above)
  | path, node => splitInternalHalves (fun _ => return) node path

def splitLeaf (leaf : ParsedPage) (path : List PageId) : IndexM σ Unit :=
  match path with
  | _ :: parentId :: above => do
    let parent ← readPage parentId
    if parent.type = .leaf then throw (.logicError "Leaf cannot be parent")
    else
      match parent.children.idxOf? leaf.pageId with
      | none => throw (.logicError "Parent missing child")
      | some childIndex =>
        let splitParent := splitInternal (parentId :: above)
        if ← tryGiveToRightLeaf leaf parent childIndex then return
        else if ← tryGiveToLeftLeaf leaf parent childIndex then return
        else if childIndex + 1 < parent.children.length then
          let right ← readPage (parent.children.getD (childIndex + 1) 0)
          if right.type ≠ .leaf then throw (.logicError "Expected leaf sibling")
          else splitLeafPair splitParent leaf right parent childIndex
        else if childIndex > 0 then
          let left ← readPage (parent.children.getD (childIndex - 1) 0)
          if left.type ≠ .leaf then throw (.logicError "Expected leaf sibling")
          else splitLeafPair splitParent left leaf parent (childIndex - 1)
        else splitLeafHalves splitParent leaf path
  | _ => splitLeafHalves (fun _ => return) leaf path

/-! ### insert -/

def makeEntry (key : Value) (rid : UInt64) : Except Exn LeafEntry := do
  let bytes ← encodeValue [] key
  return { key := bytes, keyLen := UInt16.ofNat bytes.length, rid }

def insert (key : Value) (rid : UInt64) : IndexM σ Unit :=
  if key.isNull then throw (.invalidArgument "Cannot index NULL key")
  else do
    let ent ← fromExcept (makeEntry key rid)
    let s ← get
    if s.size = 0 then
      writePage { pageId := s.rootPage, type := .leaf, leafEntries := [ent], nextLeaf := 0 }
      modify fun s => { s with size := 1 }
      writeSuperblock
    else
      let (leaf, path) ← findLeaf key
      let slot ← fromExcept (lowerBoundSlot leaf key)
      match leaf.leafEntries[slot]? with
      | some existing =>
        if ← fromExcept (keysEqual existing ent) then throw (.runtimeError "Duplicate index key")
        else insertAt leaf path slot ent
      | none => insertAt leaf path slot ent
where
  /-- The rest of `insert`, once the key is known to be new in its leaf. -/
  insertAt (leaf : ParsedPage) (path : List PageId) (slot : Nat) (ent : LeafEntry) :
      IndexM σ Unit := do
    let leaf := { leaf with leafEntries := leaf.leafEntries.insertIdx slot ent }
    if !leafOverflow leaf.leafEntries then writePage leaf
    else splitLeaf leaf path
    modify fun s => { s with size := s.size + 1 }
    writeSuperblock

end CwDb.Storage.DiskBspIndex
