import CwDb.Storage.Table
import CwDb.Foundation.Refinement

/-! The calls of a table on its indexes.

An index tracks the ideal one when every call on it, with keys of some kind, has the same
outcome and leaves the two related (`Tracking`). The ideal index is of a bounded size then,
and record ids are those the file has room for. -/
namespace CwDb.Storage
open Foundation

/-! ### Calls -/

inductive IndexCall where
  | insert (key : Value) (id : RecordId)
  | erase (key : Value)
  | find (key : Value)
  | collect (lo : Option Value) (loInclusive : Bool) (hi : Option Value) (hiInclusive : Bool)

inductive IndexAnswer where
  | done
  | erased (there : Bool)
  | found (pair : Option (Value × RecordId))
  | ids (ids : List RecordId)
  deriving DecidableEq

/-- The walk of `index_collect_range` over an index. -/
def collectIds {ι : Type} [TableIndex ι] (lo : Option Value) (loInclusive : Bool) (hi : Option Value)
    (hiInclusive : Bool) : EStateM Exn ι (List RecordId) := do
  let it ← Table.collectFrom lo loInclusive
  let disk ← get
  Table.collectLoop hi hiInclusive (TableIndex.scanFuel disk) it

/-- The call, on any index. -/
def IndexCall.run {ι : Type} [TableIndex ι] : IndexCall → EStateM Exn ι IndexAnswer
  | .insert key id => do
    TableIndex.insert key id
    return .done
  | .erase key => do
    let there ← TableIndex.erase key
    return .erased there
  | .find key => do
    let it ← TableIndex.find key
    return .found (TableIndex.here (ι := ι) it)
  | .collect lo loInclusive hi hiInclusive => do
    let ids ← collectIds lo loInclusive hi hiInclusive
    return .ids ids

/-- The pair a lookup finds. -/
def findPair {ι : Type} [TableIndex ι] (key : Value) : EStateM Exn ι (Option (Value × RecordId)) := do
  let it ← TableIndex.find key
  return TableIndex.here (ι := ι) it

/-! ### Tracking -/

/-- An index that does what the ideal one does to which it is related, to keys of some kind and
as long as there is room; and its files. -/
structure Tracking (ι : Type) [TableIndex ι] (lost : Lost) where
  Rel : ι → KeyMap lost → Prop
  FileRel : TableIndex.File ι → KeyMap lost → Prop
  Key : Value → Prop
  room : Nat
  short : ∀ key, Key key → encodedValueSize key ≤ kMaxIndexKeyBytes
  isOpen : ∀ d m, Rel d m → TableIndex.isOpen d = true
  insert : ∀ d m key id, Rel d m → Key key → id < 2 ^ 64 → m.entries.length < room →
    Agree Rel (TableIndex.insert key id d) (KeyMap.insert key id m)
  erase : ∀ d m key, Rel d m → Key key →
    Agree Rel (TableIndex.erase key d) (KeyMap.erase key m)
  find : ∀ d m key, Rel d m → Key key → Agree Rel (findPair key d) (findPair key m)
  collect : ∀ d m lo loInclusive hi hiInclusive, Rel d m → (∀ b ∈ lo, Key b) →
    (∀ b ∈ hi, Key b) → Agree Rel (collectIds lo loInclusive hi hiInclusive d)
      (collectIds lo loInclusive hi hiInclusive m)
  flush : ∀ d m, Rel d m → ∃ d', TableIndex.flush d = .ok () d' ∧ Rel d' m
  createEmpty : ∃ d, TableIndex.createEmpty = .ok d ∧ Rel d KeyMap.empty
  openFile : ∀ path file m, FileRel file m → ∃ d, TableIndex.openFile path file = .ok d ∧ Rel d m
  file : ∀ d m, Rel d m → FileRel (TableIndex.file d) m

end CwDb.Storage
