import CwDb.Storage.ValueIO
import CwDb.Foundation.Outcome
import CwDb.Foundation.SortedMap

/-! What a table asks of its indexes.

`TableIndex ι` is the part of `DiskBspIndex` a table uses, so that table code runs
over any implementation of it. Operations may change the index even when they only
read it: a page file has a cache.

`KeyMap` is the ideal one, a finite map from keys to record ids. Its insertion
fails on NULL, on a key encoded in more than 512 bytes and on a key it has. A
lookup compares its key with the keys of the map; where they compare, it ends up
where the order says. A key of another type, or NULL, compares with none, and the
place a search tree leads it to depends on the tree: `Lost` says where, and
results about `KeyMap lost` hold whatever it says. -/
namespace CwDb.Storage
open Foundation

/-- Record ids count up from 1. In the code they are numbers of 64 bits: results over B+-trees,
whose entries keep 64 bits of an id, ask for smaller ids. -/
abbrev RecordId := Nat

class TableIndex (ι : Type) where
  /-- What the file of an index holds. -/
  File : Type
  Cursor : Type
  insert : Value → RecordId → EStateM Exn ι Unit
  erase : Value → EStateM Exn ι Bool
  find : Value → EStateM Exn ι Cursor
  lowerBound : Value → EStateM Exn ι Cursor
  upperBound : Value → EStateM Exn ι Cursor
  begin : EStateM Exn ι Cursor
  next : Cursor → EStateM Exn ι Cursor
  /-- The pair a cursor is on, none at the end. -/
  here : Cursor → Option (Value × RecordId)
  /-- Bound on the steps of a cursor: one that goes on longer never ends. -/
  scanFuel : ι → Nat
  flush : EStateM Exn ι Unit
  isOpen : ι → Bool
  /-- A new index over a new file. -/
  createEmpty : Except Exn ι
  /-- The index in a file, given the file's path for messages. -/
  openFile : String → File → Except Exn ι
  /-- A new index holding a sorted list. -/
  bulkBuild : List (Value × RecordId) → Except Exn ι
  /-- The file as it is now, without what is only cached. -/
  file : ι → File

/-! ### The ideal index -/

/-- Where lookups end up whose key does not compare with the keys of the map, and
whether the removal of an over-long key, which no index holds, throws. -/
structure Lost where
  find : List (Value × RecordId) → Value → Nat
  lower : List (Value × RecordId) → Value → Nat
  upper : List (Value × RecordId) → Value → Nat
  eraseThrows : List (Value × RecordId) → Value → Bool

/-- Lookups that end up at the end. -/
def Lost.nowhere : Lost where
  find entries _ := entries.length
  lower entries _ := entries.length
  upper entries _ := entries.length
  eraseThrows _ _ := false

/-- A key an index takes. -/
def Indexable (key : Value) : Prop :=
  key.isNull = false ∧ encodedValueSize key ≤ kMaxIndexKeyBytes

instance (key : Value) : Decidable (Indexable key) := inferInstanceAs (Decidable (_ ∧ _))

structure KeyMap (lost : Lost) where
  entries : List (Value × RecordId)
  sorted : SortedKeys entries
  indexable : ∀ e ∈ entries, Indexable e.1

namespace KeyMap
variable {lost : Lost}

def empty : KeyMap lost := ⟨[], sortedKeys_nil, by simp⟩

@[ext] theorem ext {m n : KeyMap lost} (h : m.entries = n.entries) : m = n := by
  cases m
  cases n
  cases h
  rfl

/-- The map with one more pair. -/
def add (m : KeyMap lost) (key : Value) (id : RecordId) (h : Indexable key) : KeyMap lost where
  entries := insertEntry key id m.entries
  sorted := m.sorted.insertEntry key id
  indexable e he := by
    rcases mem_insertEntry.mp he with rfl | ⟨he, -⟩
    · exact h
    · exact m.indexable e he

/-- The map without a key. -/
def remove (m : KeyMap lost) (key : Value) : KeyMap lost where
  entries := eraseKey key m.entries
  sorted := m.sorted.eraseKey key
  indexable e he := m.indexable e (mem_eraseKey.mp he).1

def insert (key : Value) (id : RecordId) : EStateM Exn (KeyMap lost) Unit := fun m =>
  if h : Indexable key then
    if (lookupKey key m.entries).isSome then .error (.runtimeError "Duplicate index key") m
    else .ok () (m.add key id h)
  else if key.isNull then .error (.invalidArgument "Cannot index NULL key") m
  else .error (.runtimeError "Index key too large for disk page") m

def erase (key : Value) : EStateM Exn (KeyMap lost) Bool := fun m =>
  if (lookupKey key m.entries).isSome then .ok true (m.remove key)
  else if encodedValueSize key > kMaxIndexKeyBytes && lost.eraseThrows m.entries key then
    .error (.runtimeError "Index key too large for disk page") m
  else .ok false m

/-- Whether a key compares with every key of the map. -/
def comparable (m : KeyMap lost) (key : Value) : Bool :=
  m.entries.all fun e => (e.1.compare key).2

/-- A cursor is the suffix it has yet to visit. -/
abbrev Cursor := List (Value × RecordId)

def find (key : Value) : EStateM Exn (KeyMap lost) Cursor := fun m =>
  if m.comparable key then
    match fromKey key m.entries with
    | e :: es => .ok (if e.1 = key then e :: es else []) m
    | [] => .ok [] m
  else .ok (m.entries.drop (lost.find m.entries key)) m

def lowerBound (key : Value) : EStateM Exn (KeyMap lost) Cursor := fun m =>
  if m.comparable key then .ok (fromKey key m.entries) m
  else .ok (m.entries.drop (lost.lower m.entries key)) m

def upperBound (key : Value) : EStateM Exn (KeyMap lost) Cursor := fun m =>
  if m.comparable key then .ok (afterKey key m.entries) m
  else .ok (m.entries.drop (lost.upper m.entries key)) m

/-- The pairs inserted one by one, refused where they do not ascend. -/
def bulkBuild (entries : List (Value × RecordId)) : Except Exn (KeyMap lost) :=
  if h : SortedKeys entries ∧ ∀ e ∈ entries, Indexable e.1 then .ok ⟨entries, h.1, h.2⟩
  else .error (.runtimeError
    "bulk_build requires strictly increasing unique keys (sort input first)")

instance : TableIndex (KeyMap lost) where
  File := KeyMap lost
  Cursor := Cursor
  insert := insert
  erase := erase
  find := find
  lowerBound := lowerBound
  upperBound := upperBound
  begin := fun m => .ok m.entries m
  next cursor := pure cursor.tail
  here := List.head?
  scanFuel m := m.entries.length + 1
  flush := pure ()
  isOpen _ := true
  createEmpty := .ok empty
  openFile _ file := .ok file
  bulkBuild := bulkBuild
  file := id

end KeyMap
end CwDb.Storage
