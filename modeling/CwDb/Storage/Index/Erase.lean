import CwDb.Storage.Index.Insert

/-! Erasing a key.

A leaf left too empty borrows an entry from a sibling, merges with one, or (when
the two together overflow) is dealt out with it over three leaves; an inner node
left with too little borrows a child, merges, or evens out with a sibling.
`handleInternalAfterChildRemoved` climbs the path to the root, which is given up
for its child when it has only one. Paths are innermost first, and
`fixInternalUnderflow` takes the call on the parent as a parameter, as in the
insertion. -/
namespace CwDb.Storage.DiskBspIndex
open Foundation

variable {σ : Type} [NodeStore σ]

def promoteSingleChildRoot (root : ParsedPage) : IndexM σ Unit :=
  match root.children with
  | [only] =>
    if root.type = .leaf then throw (.logicError "Root must have exactly one child to promote")
    else do
      let child ← readPage only
      modify fun s => { s with rootPage := child.pageId }
      let first ← if child.type = .leaf then pure child.pageId else leftmostLeaf child.pageId
      modify fun s => { s with firstLeafPage := first }
  | _ => throw (.logicError "Root must have exactly one child to promote")

/-- Both entries lists dealt out over three leaves, the middle one new. -/
def redistributeLeafPair (left right parent : ParsedPage) (parentPath : List PageId) :
    IndexM σ Unit := do
  let (first, second, third) := threeWayRuns (left.leafEntries ++ right.leafEntries)
  if leafOverflow first || leafOverflow third then
    throw (.lengthError "Redistributed leaf siblings do not fit")
  else
    let middleId ← allocateNodePage
    writePage { left with leafEntries := first, nextLeaf := middleId }
    writePage { pageId := middleId, type := .leaf, leafEntries := second, nextLeaf := right.pageId }
    writePage { right with leafEntries := third }
    match parent.children.idxOf? left.pageId with
    | none => throw (.logicError "Parent missing left child")
    | some idx =>
      let children := parent.children.insertIdx (idx + 1) middleId
      let parent ← rebuildInternalKeys { parent with children }
      writePage parent
      propagateSubtreeMinChange parent.pageId parentPath

/-- Both child lists dealt out evenly over the two nodes. -/
def redistributeInternalPair (left right parent : ParsedPage) (parentPath : List PageId) :
    IndexM σ Unit := do
  let children := left.children ++ right.children
  let leftCount := (children.length + 1) / 2
  let left ← rebuildInternalKeys { left with children := children.take leftCount }
  let right ← rebuildInternalKeys { right with children := children.drop leftCount }
  if innerOverflow left.innerKeys left.children || innerOverflow right.innerKeys right.children then
    throw (.lengthError "Redistributed internal siblings do not fit")
  else
    writePage left
    writePage right
    let parent ← rebuildInternalKeys parent
    writePage parent
    propagateSubtreeMinChange parent.pageId parentPath

/-- Two siblings were written and the parent keeps its children: its separators
are rebuilt, and the change of its own minimum goes up. -/
def refreshParent (parent : ParsedPage) (parentPath : List PageId) : IndexM σ Unit := do
  let parent ← rebuildInternalKeys parent
  writePage parent
  propagateSubtreeMinChange parent.pageId parentPath

/-- The parent without child `i + 1` and the separator before it. -/
def withoutChild (parent : ParsedPage) (i : Nat) : ParsedPage :=
  let keys := parent.innerKeys.eraseIdx i
  { parent with
    children := parent.children.eraseIdx (i + 1)
    innerKeys := keys
    keyCount := UInt8.ofNat keys.length }

def fixInternalUnderflow (handleParent : ParsedPage → IndexM σ Unit) (node : ParsedPage)
    (path : List PageId) : IndexM σ Unit :=
  match path with
  | [] => throw (.logicError "Invalid path")
  | cur :: parentPath =>
    if cur ≠ node.pageId then throw (.logicError "Invalid path")
    else do
      let s ← get
      if node.pageId = s.rootPage then
        if node.children.length = 1 then promoteSingleChildRoot node
        else
          let node ← rebuildInternalKeys node
          writePage node
      else
        match parentPath with
        | [] => throw (.logicError "Invalid path")
        | parentId :: _ =>
          let parent ← readPage parentId
          if parent.type = .leaf then throw (.logicError "Leaf cannot be parent")
          else
            match parent.children.idxOf? node.pageId with
            | none => throw (.logicError "Parent missing child")
            | some childIndex => borrowLeft node parent childIndex parentPath
where
  borrowLeft (node parent : ParsedPage) (childIndex : Nat) (parentPath : List PageId) :
      IndexM σ Unit := do
    if childIndex > 0 then
      let left ← readPage (parent.children.getD (childIndex - 1) 0)
      if left.type = .leaf then throw (.logicError "Expected internal sibling")
      else if !innerUnderflow left.innerKeys left.children false && left.children.length > 1 then
        let node := { node with children := left.children.getLastD 0 :: node.children }
        let left ← rebuildInternalKeys { left with children := left.children.dropLast }
        let node ← rebuildInternalKeys node
        writePage left
        writePage node
        refreshParent parent parentPath
      else borrowRight node parent childIndex parentPath
    else borrowRight node parent childIndex parentPath
  borrowRight (node parent : ParsedPage) (childIndex : Nat) (parentPath : List PageId) :
      IndexM σ Unit := do
    if childIndex + 1 < parent.children.length then
      let right ← readPage (parent.children.getD (childIndex + 1) 0)
      if right.type = .leaf then throw (.logicError "Expected internal sibling")
      else if !innerUnderflow right.innerKeys right.children false && right.children.length > 1 then
        let node := { node with children := node.children ++ [right.children.headD 0] }
        let right ← rebuildInternalKeys { right with children := right.children.tail }
        let node ← rebuildInternalKeys node
        writePage right
        writePage node
        refreshParent parent parentPath
      else merge node parent childIndex parentPath
    else merge node parent childIndex parentPath
  merge (node parent : ParsedPage) (childIndex : Nat) (parentPath : List PageId) :
      IndexM σ Unit := do
    if childIndex > 0 then
      let left ← readPage (parent.children.getD (childIndex - 1) 0)
      mergePair left node parent (childIndex - 1) parentPath
    else if childIndex + 1 ≥ parent.children.length then
      throw (.logicError "Internal node has no sibling for merge")
    else
      let right ← readPage (parent.children.getD (childIndex + 1) 0)
      mergePair node right parent childIndex parentPath
  /-- The left node takes the right one's children, unless they do not fit. -/
  mergePair (left right parent : ParsedPage) (leftIndex : Nat) (parentPath : List PageId) :
      IndexM σ Unit := do
    let merged ← rebuildInternalKeys { left with children := left.children ++ right.children }
    if innerOverflow merged.innerKeys merged.children then
      redistributeInternalPair left right parent parentPath
    else
      writePage merged
      handleParent (withoutChild parent leftIndex)

def handleInternalAfterChildRemoved : List PageId → ParsedPage → IndexM σ Unit
  | path, node =>
    if node.type = .leaf then throw (.logicError "Expected internal node")
    else
      match path with
      | [] => throw (.logicError "Invalid path")
      | cur :: parentPath =>
        if cur ≠ node.pageId then throw (.logicError "Invalid path")
        else do
          let node ← rebuildInternalKeys node
          let s ← get
          if node.pageId = s.rootPage then
            if node.children.length = 1 then promoteSingleChildRoot node
            else writePage node
          else if innerUnderflow node.innerKeys node.children false then
            fixInternalUnderflow (handleInternalAfterChildRemoved parentPath) node
              (cur :: parentPath)
          else
            writePage node
            propagateSubtreeMinChange node.pageId (cur :: parentPath)

def fixLeafUnderflow (leaf : ParsedPage) (path : List PageId) : IndexM σ Unit :=
  match path with
  | [] => throw (.logicError "Invalid path")
  | cur :: parentPath =>
    if cur ≠ leaf.pageId then throw (.logicError "Invalid path")
    else do
      let s ← get
      if leaf.pageId = s.rootPage then writePage leaf
      else
        match parentPath with
        | [] => throw (.logicError "Invalid path")
        | parentId :: _ =>
          let parent ← readPage parentId
          if parent.type = .leaf then throw (.logicError "Leaf cannot be parent")
          else
            match parent.children.idxOf? leaf.pageId with
            | none => throw (.logicError "Parent missing child")
            | some childIndex => borrowLeft leaf parent childIndex parentPath
where
  borrowLeft (leaf parent : ParsedPage) (childIndex : Nat) (parentPath : List PageId) :
      IndexM σ Unit := do
    if childIndex > 0 then
      let left ← readPage (parent.children.getD (childIndex - 1) 0)
      if left.type ≠ .leaf then throw (.logicError "Expected leaf sibling")
      else if !leafUnderflow left.leafEntries false then
        writePage { left with leafEntries := left.leafEntries.dropLast }
        writePage { leaf with leafEntries := left.leafEntries.getLastD default :: leaf.leafEntries }
        refreshParent parent parentPath
      else borrowRight leaf parent childIndex parentPath
    else borrowRight leaf parent childIndex parentPath
  borrowRight (leaf parent : ParsedPage) (childIndex : Nat) (parentPath : List PageId) :
      IndexM σ Unit := do
    if childIndex + 1 < parent.children.length then
      let right ← readPage (parent.children.getD (childIndex + 1) 0)
      if right.type ≠ .leaf then throw (.logicError "Expected leaf sibling")
      else if !leafUnderflow right.leafEntries false then
        writePage { right with leafEntries := right.leafEntries.tail }
        writePage { leaf with leafEntries := leaf.leafEntries ++ [right.leafEntries.headD default] }
        refreshParent parent parentPath
      else merge leaf parent childIndex parentPath
    else merge leaf parent childIndex parentPath
  merge (leaf parent : ParsedPage) (childIndex : Nat) (parentPath : List PageId) :
      IndexM σ Unit := do
    if childIndex > 0 then
      let left ← readPage (parent.children.getD (childIndex - 1) 0)
      mergePair left leaf parent (childIndex - 1) parentPath leaf.pageId
    else if childIndex + 1 ≥ parent.children.length then
      throw (.logicError "Leaf has no sibling for merge")
    else
      let right ← readPage (parent.children.getD (childIndex + 1) 0)
      mergePair leaf right parent childIndex parentPath right.pageId
  /-- The left leaf takes the right one's entries, unless they do not fit. `gone` is
  the page that leaves the tree. -/
  mergePair (left right parent : ParsedPage) (leftIndex : Nat) (parentPath : List PageId)
      (gone : PageId) : IndexM σ Unit := do
    let merged := { left with
      leafEntries := left.leafEntries ++ right.leafEntries, nextLeaf := right.nextLeaf }
    if leafOverflow merged.leafEntries then redistributeLeafPair left right parent parentPath
    else
      modify fun s =>
        if s.firstLeafPage = gone then { s with firstLeafPage := merged.pageId } else s
      writePage merged
      handleInternalAfterChildRemoved parentPath (withoutChild parent leftIndex)

def erase (key : Value) : IndexM σ Bool := do
  let s ← get
  if s.size = 0 then return false
  else
    let (leaf, path) ← findLeaf key
    let slot ← fromExcept (lowerBoundSlot leaf key)
    match leaf.leafEntries[slot]? with
    | none => return false
    | some existing =>
      let probe ← fromExcept (makeEntry key 0)
      if !(← fromExcept (keysEqual existing probe)) then return false
      else
        eraseAt leaf path slot
        return true
where
  /-- The rest of `erase`, once the entry was found. -/
  eraseAt (leaf : ParsedPage) (path : List PageId) (slot : Nat) : IndexM σ Unit := do
    let leaf := { leaf with leafEntries := leaf.leafEntries.eraseIdx slot }
    modify fun s => { s with size := s.size - 1 }
    let s ← get
    if s.size = 0 then
      writePage { leaf with leafEntries := [] }
      modify fun s => { s with rootPage := leaf.pageId, firstLeafPage := leaf.pageId }
      writeSuperblock
    else if leaf.pageId = s.rootPage || !leafUnderflow leaf.leafEntries false then
      writePage leaf
      if slot = 0 && !leaf.leafEntries.isEmpty then propagateSubtreeMinChange leaf.pageId path
      writeSuperblock
    else
      fixLeafUnderflow leaf path
      writeSuperblock

end CwDb.Storage.DiskBspIndex
