import CwDb.Storage.Index.Store
import CwDb.Storage.PageCodec
import CwDb.Storage.Pager

/-! The index over the page file.

Here a node is its page: `read_page` parses the page the pager holds, `write_page`
encodes the node into it. What the pager gives back is what it was given, so a
node comes back exactly when the codec keeps it (`readPage_writePage_iff`): when
it counts at most 255 entries. -/
namespace CwDb.Storage
open Foundation

def kIdxMagic : Nat := 0x49445842
def kIdxVersion : Nat := 1

/-- Page 0: magic, version, root page, first leaf page, size. -/
def superblockImage (rootPage firstLeafPage : PageId) (size : Nat) : Bytes :=
  padPage (LittleEndian.encode 4 kIdxMagic ++ LittleEndian.encode 4 kIdxVersion ++
    LittleEndian.encode 4 rootPage ++ LittleEndian.encode 4 firstLeafPage ++
    LittleEndian.encode 8 size)

namespace Pager

def readNode (id : PageId) : PagerM ParsedPage := do
  let raw ← readPage id
  fromExcept (parsePage id raw)

def writeNode (page : ParsedPage) : PagerM Unit := do
  let raw ← fromExcept (encodePage page)
  writePage page.pageId raw

def allocateNodePage : PagerM PageId := do
  let s ← get
  if s.pageCount = 0 then writePage 0 zeroPage
  allocatePage

def writeSuperblock (rootPage firstLeafPage : PageId) (size : Nat) : PagerM Unit := do
  let s ← get
  if s.isOpen then writePage 0 (superblockImage rootPage firstLeafPage size)
  else return

instance : NodeStore Pager where
  readPage := readNode
  writePage := writeNode
  allocateNodePage := allocateNodePage
  reservePage := writePage 0 zeroPage
  writeSuperblock := writeSuperblock
  flush := flush
  pageCount := pageCount

end Pager

namespace DiskBspIndex

/-- `open`: the three numbers from page 0 of a file. -/
def openSuperblock (path : String) : IndexM Pager Unit := do
  let page ← onPager (Pager.readPage 0)
  if word page 0 4 ≠ kIdxMagic ∨ word page 4 4 ≠ kIdxVersion then
    throw (.runtimeError ("Bad index file: " ++ path))
  else
    modify fun s => { s with
      rootPage := word page 8 4, firstLeafPage := word page 12 4, size := word page 16 8 }

/-! ### A node written is the node read, if it counts few enough -/

/-- A node that was written reads back as what the codec makes of its page. -/
theorem readPage_of_writePage {p : ParsedPage} {s s' : DiskBspIndex Pager}
    (h : writePage p s = .ok () s') :
    ∃ raw, encodePage p = .ok raw ∧
      ∃ t, readPage p.pageId s' = fromExcept (parsePage p.pageId raw) t := by
  have h' : onPager (Pager.writeNode p) s = .ok () s' := h
  unfold onPager at h'
  cases hw : Pager.writeNode p s.pager with
  | error e t => rw [hw] at h'; cases h'
  | ok u t =>
    rw [hw] at h'
    injection h' with _ hs
    obtain ⟨raw, t₁, henc, hput⟩ := bind_eq_ok.mp hw
    cases hraw : encodePage p with
    | error e => rw [hraw] at henc; cases henc
    | ok bytes =>
      rw [hraw, fromExcept_ok_apply] at henc
      injection henc with hbytes ht
      subst hbytes ht
      obtain ⟨u₂, hread⟩ := Pager.readPage_writePage hput
      refine ⟨bytes, rfl, { s' with pager := u₂ }, ?_⟩
      show onPager (Pager.readNode p.pageId) s' = _
      have hnode : Pager.readNode p.pageId t = fromExcept (parsePage p.pageId bytes) u₂ :=
        bind_ok hread
      subst hs
      cases hparse : parsePage p.pageId bytes with
      | ok q => simp only [onPager, hnode, hparse, fromExcept_ok_apply]
      | error e => simp only [onPager, hnode, hparse, fromExcept_error_apply]

theorem not_sameNode_of_count {p : ParsedPage} (hp : p.Proper) {s s' : DiskBspIndex Pager}
    (h : writePage p s = .ok () s') (hcount : 255 < p.count) :
    ¬ ∃ q t, readPage p.pageId s' = .ok q t ∧ SameNode p q := by
  rintro ⟨q, u, hq, hsame⟩
  obtain ⟨raw, hraw, t, hread⟩ := readPage_of_writePage h
  rw [hread] at hq
  refine parsePage_count_lt hp hraw hcount ⟨q, ?_, hsame⟩
  cases hparse : parsePage p.pageId raw with
  | ok q' =>
    rw [hparse, fromExcept_ok_apply] at hq
    injection hq with hq
    rw [hq]
  | error e => rw [hparse] at hq; cases hq

/-- Exactly the nodes of at most 255 entries are read back as they were written. -/
theorem readPage_writePage_iff {p : ParsedPage} (hp : p.Proper) {s s' : DiskBspIndex Pager}
    (h : writePage p s = .ok () s') :
    (∃ q t, readPage p.pageId s' = .ok q t ∧ SameNode p q) ↔ p.count ≤ 255 := by
  constructor
  · intro hsame
    by_contra hcount
    exact not_sameNode_of_count hp h (by omega) hsame
  · intro hcount
    obtain ⟨raw, hraw, t, hread⟩ := readPage_of_writePage h
    refine ⟨p.stored, t, ?_, stored_sameNode hp⟩
    rw [hread, parsePage_encodePage hp hraw hcount, fromExcept_ok_apply]

/-! ### Nodes of many integers -/

/-- The index over a page file just created. -/
def fresh : DiskBspIndex Pager := ⟨{ isOpen := true }, 1, 1, 0⟩

/-- A separator of an integer. -/
def intSeparator (i : Nat) : LeafEntry :=
  { key := valueBytes (.int (Int64.ofNat i)), keyLen := 9 }

/-- An inner node of `n` integer separators. -/
def intNode (n : Nat) : ParsedPage :=
  { pageId := 1, type := .inner, keyCount := UInt8.ofNat n
    innerKeys := (List.range n).map intSeparator, children := List.range (n + 1) }

theorem intSeparator_sized (i : Nat) : (intSeparator i).Sized := by
  have hlen : (valueBytes (.int (Int64.ofNat i))).length = 9 := valueBytes_length _
  exact ⟨hlen.symm, by rw [intSeparator, hlen]; decide⟩

theorem intNode_proper {n : Nat} (hn : n ≤ 272) : (intNode n).Proper where
  kind := .inr rfl
  leafKeys h := by cases h
  separators _ k hk := by
    obtain ⟨i, -, rfl⟩ := List.mem_map.mp hk
    exact intSeparator_sized i
  fanout _ := by simp [intNode]
  next_lt := Nat.two_pow_pos 32
  children_lt c hc := by
    have hlt := List.mem_range.mp (show c ∈ List.range (n + 1) from hc)
    exact hlt.trans_le (show n + 1 ≤ 2 ^ 32 by omega)

theorem intNode_count (n : Nat) : (intNode n).count = n := by
  simp [ParsedPage.count, intNode]

theorem intNode_payload (n : Nat) :
    innerPayloadBytes (intNode n).innerKeys (intNode n).children.length = 16 + 15 * n := by
  have hsum : ((intNode n).innerKeys.map fun k => 2 + k.keyLen.toNat).sum = 11 * n := by
    simp [intNode, intSeparator, Function.comp_def, Nat.mul_comm]
  rw [innerPayloadBytes, hsum]
  simp only [intNode, List.length_range]
  omega

/-- Up to 272 of them fit. -/
theorem writePage_intNode {n : Nat} (hn : n ≤ 272) :
    ∃ s', writePage (intNode n) fresh = .ok () s' := by
  have hfits : innerOverflow (intNode n).innerKeys (intNode n).children = false := by
    rw [innerOverflow, intNode_payload, decide_eq_false_iff_not, kPageSize]
    omega
  cases henc : encodePage (intNode n) with
  | error e =>
    rw [encodePage, if_neg (by simp [intNode]), hfits] at henc
    cases henc
  | ok raw =>
    obtain ⟨t, ht⟩ := Pager.writePage_of_nothing_cached (intNode n).pageId
      (s := fresh.pager) (encodePage_length (intNode_proper hn) henc) (by decide) rfl
    have hnode : Pager.writeNode (intNode n) fresh.pager = .ok () t := by
      rw [Pager.writeNode, henc]
      exact ht
    refine ⟨{ fresh with pager := t }, ?_⟩
    show onPager (Pager.writeNode (intNode n)) fresh = _
    simp only [onPager, hnode]

theorem readPage_writePage_intNode : ∃ s', writePage (intNode 2) fresh = .ok () s' ∧
    ∃ q t, readPage 1 s' = .ok q t ∧ SameNode (intNode 2) q := by
  obtain ⟨s', hs'⟩ := writePage_intNode (n := 2) (by decide)
  exact ⟨s', hs', (readPage_writePage_iff (intNode_proper (by decide)) hs').mpr (by decide)⟩

/-- 256 integers fit an inner node, and are not read back. -/
theorem not_readPage_writePage : ¬ ∀ p : ParsedPage, p.Proper →
    ∀ s s' : DiskBspIndex Pager, writePage p s = .ok () s' →
      ∃ q t, readPage p.pageId s' = .ok q t ∧ SameNode p q := by
  intro hall
  have hp : (intNode 256).Proper := intNode_proper (by decide)
  obtain ⟨s', hs'⟩ := writePage_intNode (n := 256) (by decide)
  have hcount : 255 < (intNode 256).count := by rw [intNode_count]; decide
  exact not_sameNode_of_count hp hs' hcount (hall _ hp _ _ hs')

end DiskBspIndex
end CwDb.Storage
