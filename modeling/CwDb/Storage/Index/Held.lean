import CwDb.Storage.IndexContents
import CwDb.Storage.Index.IndexMap

/-! What a B+-tree holds: the pairs from `begin()` to `end()`.

Lookups and scans only read, whatever the store (`keeps_find`, `keeps_scan`). -/
namespace CwDb.Storage
open Foundation

theorem NodeMap.stateOf_readPage (id : PageId) (s : NodeMap) :
    stateOf (NodeMap.readPage id s) = s := by
  unfold NodeMap.readPage
  split
  · split <;> rfl
  · rfl

namespace DiskBspIndex
open BPlusTree

section Reading
variable {σ : Type} [NodeStore σ] {P : DiskBspIndex σ → Prop}

theorem keeps_findLeafLoop (hread : ∀ id, Keeps P (readPage (σ := σ) id)) (key : Value) (fuel : Nat) :
    ∀ page path, Keeps P (findLeafLoop (σ := σ) key fuel page path) := by
  induction fuel with
  | zero => exact fun _ _ => keeps_throw _
  | succ fuel ih =>
    intro page path
    refine keeps_bind (hread page) fun p => ?_
    split
    · exact keeps_pure _
    · refine keeps_bind (keeps_fromExcept _) fun child => ?_
      split
      · exact keeps_throw _
      · exact ih _ _

theorem keeps_iteratorAt (hread : ∀ id, Keeps P (readPage (σ := σ) id)) (page : PageId)
    (slot : Nat) : Keeps P (iteratorAt (σ := σ) page slot) :=
  keeps_bind (hread page) fun _ => keeps_fromExcept _

/-- A lookup only reads. -/
theorem keeps_find (hread : ∀ id, Keeps P (readPage (σ := σ) id)) (key : Value) :
    Keeps P (find (σ := σ) key) := by
  have hiterator := keeps_iteratorAt hread
  refine keeps_bind ?_ fun leaf => keeps_bind (hread _) fun p =>
    keeps_bind (keeps_fromExcept _) fun slot => ?_
  · exact keeps_bind keeps_get fun s => keeps_bind (keeps_bind keeps_get fun _ => keeps_pure _)
      fun fuel => keeps_findLeafLoop hread key fuel _ _
  · split
    · refine keeps_bind (keeps_fromExcept _) fun c => ?_
      split
      · exact hiterator _ _
      · split
        · exact hiterator _ _
        · split
          · exact keeps_pure _
          · exact hiterator _ _
    · split
      · exact keeps_pure _
      · split
        · exact hiterator _ _
        · exact keeps_pure _

theorem keeps_next (hread : ∀ id, Keeps P (readPage (σ := σ) id)) (it : ConstIterator) :
    Keeps P (it.next (σ := σ)) := by
  unfold ConstIterator.next
  split
  · exact keeps_pure it
  · refine keeps_bind (hread it.page) fun p => ?_
    split
    · exact keeps_fromExcept _
    · split
      · exact keeps_pure _
      · exact keeps_iteratorAt hread _ _

theorem keeps_scanLoop (hread : ∀ id, Keeps P (readPage (σ := σ) id)) (fuel : Nat) :
    ∀ it, Keeps P (scanLoop (σ := σ) fuel it) := by
  induction fuel with
  | zero => exact fun _ => keeps_throw _
  | succ fuel ih =>
    intro it
    rw [scanLoop]
    split
    · exact keeps_pure _
    · exact keeps_bind (keeps_next hread it) fun _ => keeps_bind (ih _) fun _ => keeps_pure _

theorem keeps_scan (hread : ∀ id, Keeps P (readPage (σ := σ) id)) : Keeps P (scan (σ := σ)) := by
  refine keeps_bind (keeps_bind keeps_get fun s => ?_) fun it =>
    keeps_bind (keeps_bind keeps_get fun _ => keeps_pure _) fun fuel => keeps_scanLoop hread fuel it
  split
  · exact keeps_pure _
  · exact keeps_iteratorAt hread _ _

/-- The pairs from `begin()` to `end()`. -/
def scanned (s : DiskBspIndex σ) : List (Value × RecordId) :=
  match scan s with
  | .ok found _ => found.map fun e => (e.1, e.2.toNat)
  | .error _ _ => []

end Reading

variable {s : DiskBspIndex NodeMap}

theorem stateOf_onPager {σ α : Type} (x : EStateM Exn σ α) (s : DiskBspIndex σ) :
    stateOf (onPager x s) = { s with pager := stateOf (x s.pager) } := by
  unfold onPager
  cases x s.pager with
  | ok a t => rfl
  | error e t => rfl

theorem stateOf_find (key : Value) (s : DiskBspIndex NodeMap) : stateOf (find key s) = s := by
  refine keeps_find (P := fun t => t = s) (fun id t ht => ?_) key s rfl
  rw [readPage, stateOf_onPager, show stateOf (NodeStore.readPage id t.pager) = t.pager from
    NodeMap.stateOf_readPage id t.pager]
  exact ht

theorem scanned_stands {ty : DataType} {H : Nat} {t : BPlusTree LeafEntry H} (hs : Stands ty t s) :
    scanned s = pairs t := by
  rw [scanned, scan_spec hs]
  exact List.map_map ..

/-- A tree in order, none of whose inner nodes has more than 255 separators. -/
instance : IndexContents (DiskBspIndex NodeMap) where
  Sound s := ∃ (ty : DataType) (H : Nat) (t : BPlusTree LeafEntry H), Stands ty t s ∧ Narrow 255 t
  holds s key := lookupKey key (scanned s)

instance : KeyIndex (DiskBspIndex NodeMap) where
  holds_key s key hsound hheld := by
    obtain ⟨ty, H, t, hs, -⟩ := hsound
    change (lookupKey key (scanned s)).isSome = true at hheld
    rw [scanned_stands hs, lookup_pairs_isSome] at hheld
    obtain ⟨e, he, rfl⟩ := hheld
    exact (hs.encodes e he).hasType.1
  find_sound s key hsound := by
    rw [show stateOf (TableIndex.find key s) = s from stateOf_find key s]
    exact hsound
  find_holds s key _ := by
    rw [show stateOf (TableIndex.find key s) = s from stateOf_find key s]
  erase_holds s s' key there hsound hheld herase := by
    obtain ⟨ty, H, t, hs, hn⟩ := hsound
    change (lookupKey key (scanned s)).isSome = true at hheld
    rw [scanned_stands hs, lookup_pairs_isSome] at hheld
    obtain ⟨e, he, rfl⟩ := hheld
    have hkey := (hs.encodes e he).decode
    obtain ⟨-, h, t', hs', hpairs⟩ := hs.erase_returned hn hkey.1 hkey.2.1 herase
    show lookupKey e.value (scanned s') = none
    rw [scanned_stands hs', hpairs, lookupKey_eq_none]
    exact fun e he => (mem_eraseKey.mp he).2

end DiskBspIndex

end CwDb.Storage
