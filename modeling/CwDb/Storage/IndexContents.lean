import CwDb.Storage.TableRows

/-! What indexes hold, as far as a table knows.

An index holds a record id for some keys (`IndexContents`). Of its operations `KeyIndex`
asks only that a lookup leaves what is held and that a removal which returns has removed its
key; insertions may do anything. `FiledIndex` is about its file: what a flush leaves there is
held again by the index that opens it, and nothing is built of a list that does not ascend. -/
namespace CwDb.Storage
open Foundation

class IndexContents (ι : Type) [TableIndex ι] where
  Sound : ι → Prop
  holds : ι → Value → Option RecordId

/-- Lookups leave an index, removals that return do their work. -/
class KeyIndex (ι : Type) [TableIndex ι] [IndexContents ι] : Prop where
  holds_key : ∀ (d : ι) key, IndexContents.Sound d → (IndexContents.holds d key).isSome = true →
    key.isNull = false
  find_sound : ∀ (d : ι) key, IndexContents.Sound d →
    IndexContents.Sound (stateOf (TableIndex.find key d))
  find_holds : ∀ (d : ι) key, IndexContents.Sound d →
    IndexContents.holds (stateOf (TableIndex.find key d)) = IndexContents.holds d
  erase_holds : ∀ (d d' : ι) key there, IndexContents.Sound d →
    (IndexContents.holds d key).isSome = true → TableIndex.erase key d = .ok there d' →
      IndexContents.holds d' key = none

/-- A flushed index is the one its file opens. -/
class FiledIndex (ι : Type) [TableIndex ι] [IndexContents ι] where
  FileHolds : TableIndex.File ι → (Value → Option RecordId) → Prop
  sound_open : ∀ d : ι, IndexContents.Sound d → TableIndex.isOpen d = true
  flush_holds : ∀ d d' : ι, IndexContents.Sound d → TableIndex.flush d = .ok () d' →
    IndexContents.Sound d' ∧ IndexContents.holds d' = IndexContents.holds d ∧
      FileHolds (TableIndex.file d') (IndexContents.holds d)
  open_holds : ∀ path file held, FileHolds file held →
    ∃ d : ι, TableIndex.openFile path file = .ok d ∧ IndexContents.Sound d ∧
      IndexContents.holds d = held
  build_sorted : ∀ entries (d : ι), TableIndex.bulkBuild entries = .ok d →
    SortedKeys entries ∧ ∀ e ∈ entries, Indexable e.1

/-! ### The ideal index -/

section Ideal
variable (lost : Lost)

instance : IndexContents (KeyMap lost) where
  Sound _ := True
  holds m key := lookupKey key m.entries

instance : KeyIndex (KeyMap lost) where
  holds_key m key _ h := by
    obtain ⟨id, hid⟩ := Option.isSome_iff_exists.mp h
    exact (m.indexable _ ((lookupKey_eq_some m.sorted).mp hid)).1
  find_sound _ _ _ := trivial
  find_holds m key _ := by
    obtain ⟨c, hc, -⟩ := KeyMap.find_mem key m
    rw [show TableIndex.find key m = _ from hc, stateOf_ok]
  erase_holds m m' key there _ hheld h := by
    rw [show TableIndex.erase key m = _ from if_pos hheld] at h
    cases h
    exact lookupKey_eq_none.mpr fun e he => (mem_eraseKey.mp he).2

instance : FiledIndex (KeyMap lost) where
  FileHolds m held := (fun key => lookupKey key m.entries) = held
  sound_open _ _ := rfl
  flush_holds m m' _ h := by
    cases h
    exact ⟨trivial, rfl, rfl⟩
  open_holds _ m _ h := ⟨m, rfl, trivial, h⟩
  build_sorted entries m h := by
    change KeyMap.bulkBuild entries = .ok m at h
    rw [KeyMap.bulkBuild] at h
    split at h
    · rename_i hsorted
      exact hsorted
    · cases h

end Ideal

/-! ### Indexes of a table -/

/-- The index of a column holds exactly the records' values there. -/
structure Table.Reflects {ι : Type} [TableIndex ι] [IndexContents ι] (t : Table ι) (col : Nat)
    (d : ι) : Prop where
  sound : IndexContents.Sound d
  holds : ∀ v id, IndexContents.holds d v = some id ↔ ∃ r, t.records id = some r ∧ r.value col = v

theorem Table.IndexAgrees.reflects {lost : Lost} {t : Table (KeyMap lost)} {col : Nat}
    {m : KeyMap lost} (h : t.IndexAgrees col m) : t.Reflects col m where
  sound := trivial
  holds v id := (lookupKey_eq_some m.sorted).trans (h v id)

end CwDb.Storage
