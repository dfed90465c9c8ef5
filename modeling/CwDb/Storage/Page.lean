import CwDb.Storage.ValueIO

/-! Index pages.

A node of the index is one page of `kPageSize` bytes: a header with a magic
number, the node type, a one-byte entry count and the next leaf, then the entries
of a leaf (key length, key, record id) or the children and separators of an inner
node. `encodePage` is what `write_page` puts into the page, `parsePage` what
`read_page` makes of it.

Whether a node fits is decided by its bytes alone (`leafOverflow`,
`innerOverflow`), while its count is cut to one byte. Keys short enough make a
node of more than 255 entries that fits, and such a node does not come back
(`parsePage_count_lt`). -/
namespace CwDb.Storage
open Foundation

def kPageSize : Nat := 4096
def kPageMagic : Nat := 0x50414745
def kLeafHeader : Nat := 12
def kInnerHeader : Nat := 12

/-- Page 0 is the superblock, so 0 is no node and ends the leaf chain. In the code page ids are
numbers of 32 bits: results about page files ask for fewer pages. -/
abbrev PageId := Nat

/-- The type byte. Whatever is not a leaf is read as an inner node. -/
inductive NodeType where
  | leaf
  | inner
  | other (byte : UInt8)
  deriving DecidableEq, Repr

def NodeType.ofByte (b : UInt8) : NodeType :=
  if b = 1 then .leaf else if b = 2 then .inner else .other b

/-- An entry of a leaf, or a separator of an inner node (its `rid` then unused). -/
structure LeafEntry where
  key : Bytes := []
  keyLen : UInt16 := 0
  rid : UInt64 := 0
  deriving DecidableEq, Repr, Inhabited

structure ParsedPage where
  pageId : PageId := 0
  type : NodeType := .leaf
  keyCount : UInt8 := 0
  nextLeaf : PageId := 0
  leafEntries : List LeafEntry := []
  innerKeys : List LeafEntry := []
  children : List PageId := []
  deriving DecidableEq, Repr

/-! ### Sizes -/

def leafEntryBytes (keyLen : UInt16) : Nat := 2 + keyLen.toNat + 8

def leafPayloadBytes (entries : List LeafEntry) : Nat :=
  12 + (entries.map fun e => 2 + e.keyLen.toNat + 8).sum

def innerPayloadBytes (keys : List LeafEntry) (childCount : Nat) : Nat :=
  12 + childCount * 4 + (keys.map fun k => 2 + k.keyLen.toNat).sum

def kMinLeafFillBytes : Nat := 12 + (kPageSize - 12) * 2 / 3
def kMinInnerFillBytes : Nat := 12 + (kPageSize - 12) * 2 / 3

def leafOverflow (entries : List LeafEntry) : Bool :=
  leafPayloadBytes entries > kPageSize

def leafUnderflow (entries : List LeafEntry) (isRoot : Bool) : Bool :=
  if isRoot then false
  else if entries.isEmpty then true
  else leafPayloadBytes entries < kMinLeafFillBytes

def innerOverflow (keys : List LeafEntry) (children : List PageId) : Bool :=
  innerPayloadBytes keys children.length > kPageSize

def innerUnderflow (keys : List LeafEntry) (children : List PageId) (isRoot : Bool) : Bool :=
  if isRoot then false
  else if children.length ≤ 1 then true
  else innerPayloadBytes keys children.length < kMinInnerFillBytes

/-! ### Writing a page -/

def leafEntryImage (e : LeafEntry) : Bytes :=
  LittleEndian.encode 2 e.keyLen.toNat ++ e.key.take e.keyLen.toNat ++
    LittleEndian.encode 8 e.rid.toNat

def separatorImage (k : LeafEntry) : Bytes :=
  LittleEndian.encode 2 k.keyLen.toNat ++ k.key.take k.keyLen.toNat

/-- The twelve header bytes; only a leaf writes its next leaf. -/
def pageHeader (type count : UInt8) (next : PageId) : Bytes :=
  LittleEndian.encode 4 kPageMagic ++ [type, count, 0, 0] ++ LittleEndian.encode 4 next

/-- A page is a buffer of zeros written from the front. -/
def padPage (bs : Bytes) : Bytes := bs ++ List.replicate (kPageSize - bs.length) 0

def encodePage (page : ParsedPage) : Except Exn Bytes :=
  if page.type = .leaf then
    if leafOverflow page.leafEntries then .error (.runtimeError "Leaf index page overflow")
    else
      .ok (padPage (pageHeader 1 (UInt8.ofNat page.leafEntries.length) page.nextLeaf ++
        page.leafEntries.flatMap leafEntryImage))
  else if innerOverflow page.innerKeys page.children then
    .error (.runtimeError "Inner index page overflow")
  else
    .ok (padPage (pageHeader 2 (UInt8.ofNat page.innerKeys.length) 0 ++
      page.children.flatMap (LittleEndian.encode 4) ++ page.innerKeys.flatMap separatorImage))

/-! ### Reading a page -/

/-- `n` bytes of the page at an offset. -/
def slice (raw : Bytes) (off n : Nat) : Bytes := (raw.drop off).take n

/-- The machine integer of `n` bytes at an offset. -/
def word (raw : Bytes) (off n : Nat) : Nat := LittleEndian.decode (slice raw off n)

def parseLeafEntries (raw : Bytes) : Nat → Nat → List LeafEntry
  | 0, _ => []
  | n + 1, off =>
    if off + 2 + 8 > kPageSize then []
    else
      let klen := word raw off 2
      { key := slice raw (off + 2) klen
        keyLen := UInt16.ofNat klen
        rid := UInt64.ofNat (word raw (off + 2 + klen) 8) } ::
        parseLeafEntries raw n (off + 2 + klen + 8)

def parseChildren (raw : Bytes) : Nat → Nat → List PageId
  | 0, _ => []
  | n + 1, off => word raw off 4 :: parseChildren raw n (off + 4)

def parseSeparators (raw : Bytes) : Nat → Nat → List LeafEntry
  | 0, _ => []
  | n + 1, off =>
    let klen := word raw off 2
    { key := slice raw (off + 2) klen, keyLen := UInt16.ofNat klen } ::
      parseSeparators raw n (off + 2 + klen)

def parsePage (pageId : PageId) (raw : Bytes) : Except Exn ParsedPage :=
  if word raw 0 4 ≠ kPageMagic then .error (.runtimeError "Corrupt index page")
  else
    let type := NodeType.ofByte (raw.getD 4 0)
    let count := raw.getD 5 0
    let next := word raw 8 4
    if type = .leaf then
      .ok { pageId, type, keyCount := count, nextLeaf := next
            leafEntries := parseLeafEntries raw count.toNat kLeafHeader }
    else
      let childCount := count.toNat + 1
      if kInnerHeader + childCount * 4 > kPageSize then
        .error (.runtimeError "Corrupt inner index page")
      else
        .ok { pageId, type, keyCount := count, nextLeaf := next
              children := parseChildren raw childCount kInnerHeader
              innerKeys := parseSeparators raw count.toNat (kInnerHeader + childCount * 4) }

/-! ### What a page keeps of a node -/

/-- The node a page gives back: the count as one byte, a next leaf for leaves
only, separators without a record id. -/
def ParsedPage.stored (p : ParsedPage) : ParsedPage :=
  if p.type = .leaf then
    { pageId := p.pageId, type := .leaf, keyCount := UInt8.ofNat p.leafEntries.length
      nextLeaf := p.nextLeaf, leafEntries := p.leafEntries }
  else
    { pageId := p.pageId, type := .inner, keyCount := UInt8.ofNat p.innerKeys.length
      innerKeys := p.innerKeys.map fun k => { k with rid := 0 }, children := p.children }

/-- The entries a page counts: a leaf's records, an inner node's separators. -/
def ParsedPage.count (p : ParsedPage) : Nat :=
  if p.type = .leaf then p.leafEntries.length else p.innerKeys.length

/-- A key as the index makes it: its length recorded, at most 512 bytes. -/
def LeafEntry.Sized (e : LeafEntry) : Prop :=
  e.keyLen.toNat = e.key.length ∧ e.key.length ≤ kMaxIndexKeyBytes

/-- A node as the index builds it: sized keys, ids of 32 bits, one child more than
separators. -/
structure ParsedPage.Proper (p : ParsedPage) : Prop where
  kind : p.type = .leaf ∨ p.type = .inner
  leafKeys : p.type = .leaf → ∀ e ∈ p.leafEntries, e.Sized
  separators : p.type = .inner → ∀ k ∈ p.innerKeys, k.Sized
  fanout : p.type = .inner → p.children.length = p.innerKeys.length + 1
  next_lt : p.nextLeaf < 2 ^ 32
  children_lt : ∀ c ∈ p.children, c < 2 ^ 32

/-- Two pages hold the same node: same type; for a leaf the same entries and next
leaf, for an inner node the same children and separator bytes. -/
def SameNode (p q : ParsedPage) : Prop :=
  q.type = p.type ∧
    (p.type = .leaf → q.leafEntries.map (fun e => (e.key, e.rid)) =
      p.leafEntries.map (fun e => (e.key, e.rid)) ∧ q.nextLeaf = p.nextLeaf) ∧
    (p.type = .inner → q.children = p.children ∧
      q.innerKeys.map (·.key) = p.innerKeys.map (·.key))

end CwDb.Storage
