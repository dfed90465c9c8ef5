import CwDb.Storage.Index.Insert
import CwDb.Foundation.BPlusUpdate
import Mathlib.Data.Multiset.Range

/-! Trees in pages.

A node of a B+-tree of entries is written in the page of its id (`pageOf`); a tree
is planted in the store when all its nodes are written. What the index reads
on its way through the pages is then what the tree says: the first entry below a
page is the tree's `minEntry`, and the separators it rebuilds are the `minima` of
the children. Writing a page that is none of a tree's leaves the tree as it was. -/
namespace CwDb.Storage
open Foundation BPlusTree

/-! ### Keys in entries -/

namespace LeafEntry

/-- The key of an entry, decoded. -/
def value (e : LeafEntry) : Value :=
  match decodeValue (DiskBspIndex.keyBytes e) with
  | .ok (v, _) => v
  | .error _ => .null

/-- An entry made of a key of the type. -/
def Encodes (ty : DataType) (e : LeafEntry) : Prop :=
  ∃ v : Value, v.HasType ty ∧ encodedValueSize v ≤ kMaxIndexKeyBytes ∧ e.key = valueBytes v ∧
    e.keyLen = UInt16.ofNat (valueBytes v).length

/-- An entry as a separator: without a record id. -/
def asSeparator (e : LeafEntry) : LeafEntry := { e with rid := 0 }

@[simp] theorem asSeparator_keyLen (e : LeafEntry) : e.asSeparator.keyLen = e.keyLen := rfl

@[simp] theorem asSeparator_value (e : LeafEntry) : e.asSeparator.value = e.value := rfl

variable {ty : DataType} {e : LeafEntry}

theorem encodes_asSeparator : e.asSeparator.Encodes ty ↔ e.Encodes ty := Iff.rfl

theorem toNat_ofNat_size {v : Value} (h : encodedValueSize v ≤ kMaxIndexKeyBytes) :
    (UInt16.ofNat (valueBytes v).length).toNat = encodedValueSize v := by
  rw [UInt16.toNat_ofNat', valueBytes_length, Nat.mod_eq_of_lt]
  exact h.trans_lt (by decide)

theorem keyBytes_eq {v : Value} (h : encodedValueSize v ≤ kMaxIndexKeyBytes)
    (hkey : e.key = valueBytes v) (hlen : e.keyLen = UInt16.ofNat (valueBytes v).length) :
    DiskBspIndex.keyBytes e = valueBytes v := by
  rw [DiskBspIndex.keyBytes, hkey, hlen, toNat_ofNat_size h, ← valueBytes_length, List.take_length]

theorem Encodes.decode (h : e.Encodes ty) :
    e.value.HasType ty ∧ encodedValueSize e.value ≤ kMaxIndexKeyBytes ∧
      DiskBspIndex.keyBytes e = valueBytes e.value ∧
      e.keyLen.toNat = encodedValueSize e.value := by
  obtain ⟨v, htype, hsize, hkey, hlen⟩ := h
  have hbytes := keyBytes_eq hsize hkey hlen
  have hdecode := decodeValue_valueBytes v [] hsize
  rw [List.append_nil] at hdecode
  have hvalue : e.value = v := by
    rw [value, hbytes, hdecode]
  rw [hvalue]
  exact ⟨htype, hsize, hbytes, by rw [hlen, toNat_ofNat_size hsize]⟩

theorem Encodes.hasType (h : e.Encodes ty) : e.value.HasType ty := h.decode.1

theorem Encodes.size_le (h : e.Encodes ty) : encodedValueSize e.value ≤ kMaxIndexKeyBytes :=
  h.decode.2.1

theorem Encodes.keyLen_le (h : e.Encodes ty) : e.keyLen.toNat ≤ kMaxIndexKeyBytes := by
  rw [h.decode.2.2.2]
  exact h.size_le

theorem Encodes.decodeValue (h : e.Encodes ty) :
    decodeValue (DiskBspIndex.keyBytes e) = .ok (e.value, encodedValueSize e.value) := by
  have hdecode := decodeValue_valueBytes e.value [] h.size_le
  rw [List.append_nil] at hdecode
  rw [h.decode.2.2.1, hdecode]

end LeafEntry

namespace DiskBspIndex

section Comparisons
variable {ty : DataType} {a b : LeafEntry} {v : Value}

theorem cmpKeyBytes_encodes (ha : a.Encodes ty) : cmpKeyBytes a v = .ok (a.value.compare v).1 := by
  rw [cmpKeyBytes, ha.decodeValue]
  rfl

theorem compareEntries_encodes (ha : a.Encodes ty) (hb : b.Encodes ty) :
    compareEntries a b = .ok (a.value.compare b.value).1 := by
  rw [compareEntries, compareEncodedKeys, ha.decodeValue, hb.decodeValue]
  rfl

theorem keysEqual_encodes (ha : a.Encodes ty) (hb : b.Encodes ty) :
    keysEqual a b = .ok (decide (a.value = b.value)) := by
  have hzero := Value.compare_zero_iff ha.hasType hb.hasType
  rw [keysEqual, compareEntries_encodes ha hb]
  show Except.ok ((a.value.compare b.value).1 == 0) = _
  rw [← decide_eq_decide.mpr hzero]
  rfl

/-- The entry made of a key. -/
def entryOf (key : Value) (rid : UInt64) : LeafEntry :=
  { key := valueBytes key, keyLen := UInt16.ofNat (valueBytes key).length, rid }

theorem makeEntry_ok {key : Value} (rid : UInt64) (h : encodedValueSize key ≤ kMaxIndexKeyBytes) :
    makeEntry key rid = .ok (entryOf key rid) := by
  rw [makeEntry, encodeValue_nil, if_neg (Nat.not_lt.mpr h)]
  rfl

theorem entryOf_encodes {key : Value} (rid : UInt64) (htype : key.HasType ty)
    (h : encodedValueSize key ≤ kMaxIndexKeyBytes) : (entryOf key rid).Encodes ty :=
  ⟨key, htype, h, rfl, rfl⟩

theorem entryOf_value {key : Value} (rid : UInt64) (h : encodedValueSize key ≤ kMaxIndexKeyBytes) :
    (entryOf key rid).value = key := by
  have hdecode := decodeValue_valueBytes key [] h
  rw [List.append_nil] at hdecode
  rw [LeafEntry.value, LeafEntry.keyBytes_eq h rfl rfl, hdecode]

end Comparisons

/-! ### Nodes in pages -/

/-- The page of a node. -/
def pageOf : NodeRecord LeafEntry → ParsedPage
  | .leaf l => { pageId := l.id, type := .leaf, keyCount := UInt8.ofNat l.entries.length
                 nextLeaf := l.next, leafEntries := l.entries }
  | .inner id ks cs => { pageId := id, type := .inner, keyCount := UInt8.ofNat ks.length
                         innerKeys := ks.map LeafEntry.asSeparator, children := cs }

@[simp] theorem pageOf_pageId (r : NodeRecord LeafEntry) : (pageOf r).pageId = r.id := by
  cases r with
  | leaf l => rfl
  | inner id ks cs => rfl

theorem innerPayloadBytes_asSeparator (ks : List LeafEntry) (n : Nat) :
    innerPayloadBytes (ks.map LeafEntry.asSeparator) n = innerPayloadBytes ks n := by
  rw [innerPayloadBytes, List.map_map]
  rfl

@[simp] theorem stored_pageId (p : ParsedPage) : p.stored.pageId = p.pageId := by
  rw [ParsedPage.stored]
  split
  · rfl
  · rfl

/-- A page fits as it is stored if it fits. -/
theorem overflows_stored (p : ParsedPage) : NodeMap.overflows p.stored = NodeMap.overflows p := by
  by_cases hleaf : p.type = .leaf
  · rw [ParsedPage.stored, if_pos hleaf, NodeMap.overflows, NodeMap.overflows, if_pos rfl,
      if_pos hleaf]
  · rw [ParsedPage.stored, if_neg hleaf, NodeMap.overflows, NodeMap.overflows,
      if_neg NodeType.noConfusion, if_neg hleaf, innerOverflow, innerOverflow]
    show decide (innerPayloadBytes (p.innerKeys.map LeafEntry.asSeparator) _ > _) = _
    rw [innerPayloadBytes_asSeparator]

/-- A node is written in its page: the page is one of the store's, the node fits it
and has keys of the type. -/
structure Written (ty : DataType) (s : NodeMap) (r : NodeRecord LeafEntry) : Prop where
  pos : 0 < r.id
  lt : r.id < s.count
  page : s.pages r.id = some (pageOf r)
  fits : NodeMap.overflows (pageOf r) = false
  encodes : ∀ e ∈ r.keys, e.Encodes ty

section Pages
variable {ty : DataType} {r : NodeRecord LeafEntry}

/-- Another page is written. -/
theorem Written.put {s : NodeMap} (h : Written ty s r) {id : PageId} (hid : r.id ≠ id)
    (page : Option ParsedPage) : Written ty (s.put id page) r where
  pos := h.pos
  lt := h.lt.trans_le (le_max_left _ _)
  page := by rw [NodeMap.put_pages_ne _ _ hid, h.page]
  fits := h.fits
  encodes := h.encodes

/-- The node itself is written. -/
theorem written_put {s : NodeMap} (hpos : 0 < r.id) (hfits : NodeMap.overflows (pageOf r) = false)
    (hencodes : ∀ e ∈ r.keys, e.Encodes ty) : Written ty (s.put r.id (some (pageOf r))) r where
  pos := hpos
  lt := (Nat.lt_succ_self _).trans_le (le_max_right _ _)
  page := NodeMap.put_pages_self _ _ _
  fits := hfits
  encodes := hencodes

variable {s : DiskBspIndex NodeMap}

theorem readPage_written (h : Written ty s.pager r) : readPage r.id s = .ok (pageOf r) s := by
  show onPager (NodeMap.readPage r.id) s = _
  have hread : NodeMap.readPage r.id s.pager = .ok (pageOf r) s.pager := by
    rw [NodeMap.readPage, if_pos h.lt, h.page]
  simp only [onPager, hread]

theorem writePage_fits {p : ParsedPage} (h : NodeMap.overflows p = false) :
    writePage p s = .ok () { s with pager := s.pager.put p.pageId (some p.stored) } := by
  show onPager (NodeMap.writePage p) s = _
  have hwrite : NodeMap.writePage p s.pager = .ok () (s.pager.put p.pageId (some p.stored)) := by
    rw [NodeMap.writePage, if_neg (by rw [h]; decide)]
  simp only [onPager, hwrite]

theorem writePage_overflows {p : ParsedPage} (h : NodeMap.overflows p = true) :
    writePage p s = .error (.runtimeError (if p.type = .leaf then "Leaf index page overflow"
      else "Inner index page overflow")) s := by
  show onPager (NodeMap.writePage p) s = _
  have hwrite : NodeMap.writePage p s.pager = .error (.runtimeError (if p.type = .leaf then
      "Leaf index page overflow" else "Inner index page overflow")) s.pager := by
    rw [NodeMap.writePage, if_pos h]
  simp only [onPager, hwrite]

theorem allocateNodePage_ok (h : 0 < s.pager.count) : allocateNodePage s =
    .ok s.pager.count { s with pager := s.pager.put s.pager.count none } := by
  show onPager NodeMap.allocateNodePage s = _
  have halloc : NodeMap.allocateNodePage s.pager =
      .ok s.pager.count (s.pager.put s.pager.count none) := by
    rw [NodeMap.allocateNodePage, if_neg (Nat.pos_iff_ne_zero.mp h)]
  simp only [onPager, halloc]

theorem descentFuel_apply : (descentFuel : IndexM NodeMap Nat) s = .ok (s.pager.count + 1) s := rfl

end Pages

/-! ### Trees in pages -/

/-- A tree lies in pages of its own, with an entry in every leaf. -/
structure Planted (ty : DataType) {h : Nat} (t : BPlusTree LeafEntry h) (s : NodeMap) : Prop where
  written : ∀ r ∈ t.records, Written ty s r
  nodup : t.ids.Nodup
  branching : Branching t
  filled : Filled t

namespace Planted
variable {ty : DataType} {h : Nat} {t : BPlusTree LeafEntry h} {s : NodeMap}

theorem put (ht : Planted ty t s) {id : PageId} (hid : id ∉ t.ids) (page : Option ParsedPage) :
    Planted ty t (s.put id page) where
  written r hr := (ht.written r hr).put
    (fun heq => hid (Multiset.mem_map.mpr ⟨r, hr, heq⟩)) page
  nodup := ht.nodup
  branching := ht.branching
  filled := ht.filled

theorem entries_ne_nil (ht : Planted ty t s) : t.entries ≠ [] := ht.filled.entries_ne_nil ht.branching

theorem child {id : Nat} {ks : List LeafEntry} {cs : List (BPlusTree LeafEntry h)}
    (ht : Planted ty (node id ks cs) s) : ∀ c ∈ cs, Planted ty c s := by
  intro c hc
  obtain ⟨l, r, rfl⟩ := List.append_of_mem hc
  refine ⟨fun x hx => ht.written x ?_, ?_, ht.branching.2 c hc,
    filled_node.mp ht.filled c hc⟩
  · rw [records_node]
    exact Multiset.mem_cons_of_mem (mem_recordsOf.mpr ⟨c, hc, hx⟩)
  · have hnodup := ht.nodup
    rw [ids, records_node, recordsOf_append, recordsOf_cons, Multiset.map_cons, Multiset.map_add,
      Multiset.map_add] at hnodup
    have hrest := (Multiset.nodup_cons.mp hnodup).2
    exact (Multiset.nodup_add.mp (Multiset.nodup_add.mp hrest).2.1).1

end Planted

/-- Every node takes a page. -/
theorem card_le_count {ty : DataType} {h : Nat} {t : BPlusTree LeafEntry h} {s : NodeMap}
    (hwritten : ∀ r ∈ t.records, Written ty s r) (hnodup : t.ids.Nodup) :
    t.records.card ≤ s.count := by
  have hsub : t.ids ≤ Multiset.range s.count := by
    refine (Multiset.le_iff_subset hnodup).mpr fun i hi => ?_
    obtain ⟨r, hr, rfl⟩ := Multiset.mem_map.mp hi
    exact Multiset.mem_range.mpr (hwritten r hr).lt
  have hcard := Multiset.card_le_card hsub
  rwa [ids, Multiset.card_map, Multiset.card_range] at hcard

/-- The descent's fuel suffices: there is a page on every level. -/
theorem height_lt_count {ty : DataType} {h : Nat} {t : BPlusTree LeafEntry h} {s : NodeMap}
    (hwritten : ∀ r ∈ t.records, Written ty s r) (hnodup : t.ids.Nodup)
    (hbranching : Branching t) : h < s.count :=
  hbranching.height_lt_card.trans_le (card_le_count hwritten hnodup)

/-- A leaf that fits has fewer entries than a page has bytes. -/
theorem entries_length_lt {l : Leaf LeafEntry} (hfits : NodeMap.overflows (pageOf (.leaf l)) = false) :
    l.entries.length < kPageSize := by
  have hsum : ∀ es : List LeafEntry, es.length ≤ (es.map fun e => 2 + e.keyLen.toNat + 8).sum := by
    intro es
    induction es with
    | nil => exact Nat.le_refl _
    | cons e es ih =>
      rw [List.length_cons, List.map_cons, List.sum_cons]
      omega
  have hle : leafPayloadBytes l.entries ≤ kPageSize := Nat.not_lt.mp (of_decide_eq_false hfits)
  have := hsum l.entries
  rw [leafPayloadBytes] at hle
  omega

section Minima
variable {ty : DataType} {h : Nat} {s : DiskBspIndex NodeMap}

theorem subtreeMinLoop_planted : ∀ {h : Nat} {t : BPlusTree LeafEntry h} {fuel : Nat}, h < fuel →
    Planted ty t s.pager → subtreeMinLoop fuel t.rootId s = .ok t.minEntry s
  | 0, t, fuel + 1, _, ht => by
    have hread := readPage_written (ht.written _ (rootRecord_mem t))
    rw [rootRecord_id] at hread
    rw [subtreeMinLoop]
    refine (bind_ok hread).trans ?_
    refine (if_pos (show (pageOf t.rootRecord).type = .leaf from rfl)).symm ▸ ?_
    have hne := ht.entries_ne_nil
    have hes : (pageOf t.rootRecord).leafEntries = t.entries := (entries_leaf t).symm
    rw [hes, minEntry]
    cases hes : t.entries with
    | nil => exact absurd hes hne
    | cons e es => rfl
  | h + 1, t, fuel + 1, hfuel, ht => by
    have hread := readPage_written (ht.written _ (rootRecord_mem t))
    rw [rootRecord_id] at hread
    rw [subtreeMinLoop]
    refine (bind_ok hread).trans ?_
    refine (if_neg (show ¬ (pageOf t.rootRecord).type = .leaf from NodeType.noConfusion)).symm ▸ ?_
    rw [eq_node t] at ht ⊢
    have hchildren : (pageOf (node t.rootId t.keys t.children).rootRecord).children =
        t.children.map rootId := rfl
    rw [hchildren]
    cases hcs : t.children with
    | nil => exact absurd hcs ht.branching.1
    | cons c cs =>
      rw [hcs] at ht
      have hc := ht.child c List.mem_cons_self
      rw [minEntry_node hc.entries_ne_nil, List.map_cons]
      exact subtreeMinLoop_planted (Nat.lt_of_succ_lt_succ hfuel) hc

theorem subtreeMinEntry_planted {t : BPlusTree LeafEntry h} (ht : Planted ty t s.pager) :
    subtreeMinEntry t.rootId s = .ok t.minEntry s := by
  rw [subtreeMinEntry]
  refine (bind_ok descentFuel_apply).trans ?_
  exact subtreeMinLoop_planted
    (Nat.lt_succ_of_lt (height_lt_count ht.written ht.nodup ht.branching)) ht

theorem subtreeMins_planted {cs : List (BPlusTree LeafEntry h)}
    (hcs : ∀ c ∈ cs, Planted ty c s.pager) :
    subtreeMins (cs.map rootId) s = .ok (cs.map minEntry) s := by
  induction cs with
  | nil => rfl
  | cons c cs ih =>
    rw [List.map_cons, subtreeMins]
    refine (bind_ok (subtreeMinEntry_planted (hcs c List.mem_cons_self))).trans ?_
    exact bind_ok (ih fun d hd => hcs d (List.mem_cons_of_mem _ hd))

/-- The separators rebuilt are the minima of the children. -/
theorem rebuildInternalKeys_planted {node : ParsedPage} {cs : List (BPlusTree LeafEntry h)}
    (htype : node.type ≠ .leaf) (hchildren : node.children = cs.map rootId)
    (hcs : ∀ c ∈ cs.tail, Planted ty c s.pager) : rebuildInternalKeys node s =
      .ok { node with innerKeys := minima cs, keyCount := UInt8.ofNat (minima cs).length } s := by
  rw [rebuildInternalKeys, if_neg htype, hchildren]
  cases cs with
  | nil => rfl
  | cons c cs => exact bind_ok (subtreeMins_planted hcs)

end Minima

/-! ### Well-formed indexes -/

/-- The pages are those of this tree. -/
structure Standing (ty : DataType) {h : Nat} (t : BPlusTree LeafEntry h)
    (s : DiskBspIndex NodeMap) : Prop where
  wellFormed : t.WellFormed LeafEntry.value s.firstLeafPage
  root : s.rootPage = t.rootId
  written : ∀ r ∈ t.records, Written ty s.pager r

/-- The index is this tree, in its pages. -/
structure Stands (ty : DataType) {h : Nat} (t : BPlusTree LeafEntry h)
    (s : DiskBspIndex NodeMap) : Prop extends Standing ty t s where
  size : s.size = t.entries.length

/-- The pages are those of this tree, whatever the order of its keys. -/
structure Laid (ty : DataType) {h : Nat} (t : BPlusTree LeafEntry h)
    (s : DiskBspIndex NodeMap) : Prop where
  shape : t.Shape s.firstLeafPage
  root : s.rootPage = t.rootId
  written : ∀ r ∈ t.records, Written ty s.pager r

/-- The index is this tree, in its pages, whatever the order of its keys. -/
structure Stored (ty : DataType) {h : Nat} (t : BPlusTree LeafEntry h)
    (s : DiskBspIndex NodeMap) : Prop extends Laid ty t s where
  size : s.size = t.entries.length

section Laid
variable {ty : DataType} {h : Nat} {t : BPlusTree LeafEntry h} {s : DiskBspIndex NodeMap}

theorem Standing.laid (hs : Standing ty t s) : Laid ty t s :=
  ⟨hs.wellFormed.shape, hs.root, hs.written⟩

theorem Laid.standing (hs : Laid ty t s) (hsorted : Sorted LeafEntry.value t) : Standing ty t s :=
  ⟨hs.shape.wellFormed hsorted, hs.root, hs.written⟩

theorem Stands.stored (hs : Stands ty t s) : Stored ty t s := ⟨hs.toStanding.laid, hs.size⟩

theorem Stored.stands (hs : Stored ty t s) (hsorted : Sorted LeafEntry.value t) : Stands ty t s :=
  ⟨hs.toLaid.standing hsorted, hs.size⟩

theorem Laid.encodes (hs : Laid ty t s) : ∀ e ∈ t.entries, e.Encodes ty := by
  intro e he
  obtain ⟨l, hl, hel⟩ := List.mem_flatMap.mp he
  exact (hs.written _ (leaf_mem_records hl)).encodes e hel

end Laid

theorem Stands.encodes {ty : DataType} {h : Nat} {t : BPlusTree LeafEntry h} {s : DiskBspIndex NodeMap}
    (hs : Stands ty t s) : ∀ e ∈ t.entries, e.Encodes ty := hs.toStanding.laid.encodes

end DiskBspIndex
end CwDb.Storage
