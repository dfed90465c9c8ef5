import CwDb.Sql.Schema
import CwDb.Storage.Files

/-! Tables.

A table keeps its records by id, the ids in insertion order, the next id, and one
index for each indexed column. `insert`, `update` and `erase` check the
constraints first, then change the records and then the indexes, one column after
the other; a throw on the way leaves what was done before it.

A record's value at a column that it does not have reads as NULL and is not
written: the callers only pass positions of the schema. -/
namespace CwDb.Storage
open Foundation

structure Record where
  /-- One value per column. -/
  values : List Value := []
  deriving DecidableEq, Repr

namespace Record

def value (r : Record) (col : Nat) : Value := r.values.getD col .null

/-- The record after assignments, made in order. -/
def assign (r : Record) : List (Nat × Value) → Record
  | [] => r
  | (col, v) :: rest => assign { r with values := r.values.set col v } rest

end Record

structure Table (ι : Type) where
  name : Str := []
  schema : TableSchema := {}
  records : RecordId → Option Record := fun _ => none
  order : List RecordId := []
  indexes : Nat → Option ι := fun _ => none
  datPath : Option Path := none
  nextId : RecordId := 1

abbrev TableM (ι : Type) [TableIndex ι] := DiskM ι (Table ι)

namespace Table
open DiskM

variable {ι : Type} [TableIndex ι]

/-! ### Columns -/

def requireColumn (t : Table ι) (name : Str) : Except Exn Nat :=
  match t.schema.indexOf name with
  | some i => .ok i
  | none => .error (.runtimeError
      ("Unknown column '" ++ name.text ++ "' in table '" ++ t.name.text ++ "'"))

def columnIsIndexed (t : Table ι) (col : Nat) : Bool :=
  match t.schema.columns[col]? with
  | some c => c.indexed
  | none => false

def columnName (t : Table ι) (col : Nat) : Str :=
  ((t.schema.columns[col]?).getD {}).name

/-- A loop over columns. -/
def eachColumn (f : Nat → TableM ι Unit) : List Nat → TableM ι Unit
  | [] => return
  | col :: cols => do
    f col
    eachColumn f cols

theorem keeps_eachColumn {P : OnDisk ι (Table ι) → Prop} {f : Nat → TableM ι Unit}
    (hf : ∀ col, Keeps P (f col)) (cols : List Nat) : Keeps P (eachColumn f cols) := by
  induction cols with
  | nil => exact keeps_pure ()
  | cons col cols ih => exact keeps_bind (hf col) fun _ => ih

/-! ### Index files -/

def openIndex (datPath : Path) (col : Nat) : TableM ι Unit := do
  let t ← getObj
  if (t.indexes col).isSome then return
  else
    let path := datPath.indexFile col
    let fs ← getFs
    let disk ← fromExcept <| match fs.read path with
      | some (.index file) => TableIndex.openFile path.text file
      | some (.bytes _) => .error (.runtimeError ("Bad index file: " ++ path.text))
      | none => TableIndex.createEmpty
    modifyFs fun fs => fs.write path (.index (TableIndex.file disk))
    modifyObj fun t => { t with indexes := Function.update t.indexes col (some disk) }

def openIndexes : TableM ι Unit := do
  let t ← getObj
  match t.datPath with
  | none => return
  | some datPath => eachColumn (openIndex datPath) t.schema.indexedColumns

def bindDatPath (datPath : Path) : TableM ι Unit := do
  modifyObj fun t => { t with datPath := some datPath }
  openIndexes

/-- An index operation on the index of a column. -/
def onIndex {α : Type} (col : Nat) (disk : ι) (x : EStateM Exn ι α) : TableM ι α := fun s =>
  match x disk with
  | .ok a disk =>
    .ok a { s with obj.indexes := Function.update s.obj.indexes col (some disk) }
  | .error e disk =>
    .error e { s with obj.indexes := Function.update s.obj.indexes col (some disk) }

/-- A round of the loop of `flush_indexes`. -/
def flushIndex (col : Nat) : TableM ι Unit := do
  let t ← getObj
  match t.indexes col with
  | none => return
  | some disk => if TableIndex.isOpen disk then onIndex col disk TableIndex.flush else return

/-- `flush_indexes`: every index there is belongs to a column of the schema. -/
def flushIndexes : TableM ι Unit := do
  let t ← getObj
  eachColumn flushIndex (List.range t.schema.columns.length)

def mutableIndex (col : Nat) : TableM ι ι := do
  let t ← getObj
  if !t.columnIsIndexed col then throw (.runtimeError "Column is not indexed")
  else if t.datPath.isNone then
    throw (.runtimeError "Table storage path is not bound; cannot update on-disk index")
  else
    openIndexes
    let t ← getObj
    match t.indexes col with
    | some disk => return disk
    | none => throw (.outOfRange "unordered_map::at")

def indexAt (t : Table ι) (col : Nat) : Option ι :=
  if t.columnIsIndexed col then
    match t.indexes col with
    | some disk => if TableIndex.isOpen disk then some disk else none
    | none => none
  else none

/-! ### Lookups -/

def indexFind (col : Nat) (key : Value) : TableM ι (Option RecordId) := do
  let t ← getObj
  match t.indexAt col with
  | none => return none
  | some disk =>
    let it ← onIndex col disk (TableIndex.find key)
    return (TableIndex.here (ι := ι) it).map Prod.snd

/-- Whether a key is past the upper bound, or does not compare with it. -/
def pastUpper (hi : Option Value) (hiInclusive : Bool) (key : Value) : Bool :=
  match hi with
  | none => false
  | some hi =>
    let (c, valid) := key.compare hi
    !valid || (if hiInclusive then c > 0 else c ≥ 0)

/-- The loop of `index_collect_range`. -/
def collectLoop (hi : Option Value) (hiInclusive : Bool) :
    Nat → TableIndex.Cursor ι → EStateM Exn ι (List RecordId)
  | 0, _ => throw .diverges
  | fuel + 1, it =>
    match TableIndex.here it with
    | none => return []
    | some (key, id) =>
      if pastUpper hi hiInclusive key then return []
      else do
        let it ← TableIndex.next it
        let rest ← collectLoop hi hiInclusive fuel it
        return id :: rest

/-- The cursor `index_collect_range` starts from. -/
def collectFrom (lo : Option Value) (loInclusive : Bool) : EStateM Exn ι (TableIndex.Cursor ι) :=
  match lo with
  | some lo => if loInclusive then TableIndex.lowerBound lo else TableIndex.upperBound lo
  | none => TableIndex.begin

def indexCollectRange (col : Nat) (lo : Option Value) (loInclusive : Bool) (hi : Option Value)
    (hiInclusive : Bool) : TableM ι (List RecordId) := do
  let t ← getObj
  match t.indexAt col with
  | none => return []
  | some disk => onIndex col disk do
      let it ← collectFrom lo loInclusive
      let disk ← get
      collectLoop hi hiInclusive (TableIndex.scanFuel disk) it

/-! ### Rows -/

/-- The values at their positions; a slot still free stands for `assigned[i] == false`. -/
def assignSlots (t : Table ι) : List (Nat × Value) → List (Option Value) →
    Except Exn (List (Option Value))
  | [], slots => .ok slots
  | (pos, v) :: rest, slots =>
    if (slots.getD pos none).isSome then
      .error (.runtimeError ("INSERT: column '" ++ (t.columnName pos).text ++ "' specified twice"))
    else assignSlots t rest (slots.set pos (some v))

/-- What a column gets that was not assigned. -/
def defaultOf (c : ColumnDef) : Value := if c.hasDefault then c.defaultValue else .null

def materialize (t : Table ι) (columnPositions : List Nat) (values : List Value) :
    Except Exn Record := do
  if columnPositions.length ≠ values.length then
    throw (.runtimeError "INSERT: column/value count mismatch")
  else
    let slots ← assignSlots t (columnPositions.zip values) (t.schema.columns.map fun _ => none)
    return { values := List.zipWith (fun slot c => slot.getD (defaultOf c)) slots t.schema.columns }

/-- The first loop of `enforce_constraints`: NULLs and types. -/
def checkValues : List ColumnDef → List Value → Except Exn Unit
  | col :: cols, v :: vs =>
    if v.isNull then
      if col.notNull || col.indexed then
        .error (.runtimeError ("NULL not allowed in column '" ++ col.name.text ++ "'"))
      else checkValues cols vs
    else if !v.matchesType col.type then
      .error (.runtimeError ("Type mismatch for column '" ++ col.name.text ++ "' (expected " ++
        typeName col.type ++ ")"))
    else checkValues cols vs
  | _, _ => .ok ()

/-- The second loop: no other record has the value. -/
def checkUnique (r : Record) (existingId : Option RecordId) (col : Nat) : TableM ι Unit :=
  if (r.value col).isNull then return
  else do
    let found ← indexFind col (r.value col)
    let t ← getObj
    if found.isSome && found ≠ existingId then
      throw (.runtimeError ("Duplicate value in indexed column '" ++ (t.columnName col).text ++ "'"))
    else return

def enforceConstraints (r : Record) (existingId : Option RecordId) : TableM ι Unit := do
  let t ← getObj
  if r.values.length ≠ t.schema.columns.length then
    throw (.runtimeError "Internal: record arity mismatch")
  else
    fromExcept (checkValues t.schema.columns r.values)
    eachColumn (checkUnique r existingId) t.schema.indexedColumns

/-- One round of `install_into_indexes`. -/
def installColumn (id : RecordId) (r : Record) (col : Nat) : TableM ι Unit :=
  if (r.value col).isNull then return
  else do
    let disk ← mutableIndex col
    onIndex col disk (TableIndex.insert (r.value col) id)

def installIntoIndexes (id : RecordId) (r : Record) : TableM ι Unit := do
  let t ← getObj
  eachColumn (installColumn id r) t.schema.indexedColumns

/-- One round of `remove_from_indexes`. -/
def removeColumn (r : Record) (col : Nat) : TableM ι Unit :=
  if (r.value col).isNull then return
  else do
    let disk ← mutableIndex col
    let _ ← onIndex col disk (TableIndex.erase (r.value col))
    return

def removeFromIndexes (r : Record) : TableM ι Unit := do
  let t ← getObj
  eachColumn (removeColumn r) t.schema.indexedColumns

def insert (record : Record) : TableM ι RecordId := do
  enforceConstraints record none
  let t ← getObj
  let id := t.nextId
  -- `emplace` keeps a record that is already there
  let stored := (t.records id).getD record
  modifyObj fun t => { t with
    nextId := id + 1, records := Function.update t.records id (some stored)
    order := t.order ++ [id] }
  installIntoIndexes id stored
  return id

def update (id : RecordId) (assignments : List (Nat × Value)) : TableM ι Unit := do
  let t ← getObj
  match t.records id with
  | none => throw (.runtimeError "Internal: record id not found")
  | some old =>
    let updated := old.assign assignments
    enforceConstraints updated (some id)
    removeFromIndexes old
    modifyObj fun t => { t with records := Function.update t.records id (some updated) }
    installIntoIndexes id updated

def erase (id : RecordId) : TableM ι Unit := do
  let t ← getObj
  match t.records id with
  | none => return
  | some r =>
    removeFromIndexes r
    modifyObj fun t => { t with
      records := Function.update t.records id none, order := t.order.erase id }

end Table
end CwDb.Storage
