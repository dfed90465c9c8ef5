import CwDb.Storage.Table

/-! The file of a table.

`save` writes the schema, the next id and the records in order; the indexes have
files of their own. `load` reads such a file back and opens the index files; from
a file of an older version it builds the indexes anew.

A read past the end of the file takes the bytes there are and leaves the rest of its
variable as it was: an arbitrary value where the variable was not initialised, which
`junk` stands for. The stream has then failed, which no caller asks about, and later
reads find nothing. -/
namespace CwDb.Storage
open Foundation

def kMagic : Nat := 0x42535444
def kVersion : Nat := 3

/-! ### Writing -/

/-- The length is cut to four bytes, and so many bytes of the string follow. -/
def writeString (s : Str) : Bytes :=
  LittleEndian.encode 4 s.length ++ s.take (s.length % 256 ^ 4)

def writeValue : Value → Bytes
  | .null => [0]
  | .int i => 1 :: LittleEndian.encode 8 i.toUInt64.toNat
  | .str s => 2 :: writeString s

def DataType.byte : DataType → UInt8
  | .int => 1
  | .str => 2
  | .other b => b

def DataType.ofByte (b : UInt8) : DataType :=
  if b = 1 then .int else if b = 2 then .str else .other b

def columnFlags (c : ColumnDef) : UInt8 :=
  (if c.notNull then 1 else 0) ||| (if c.indexed then 2 else 0) |||
    (if c.hasDefault then 4 else 0)

def writeColumn (c : ColumnDef) : Bytes :=
  writeString c.name ++ [DataType.byte c.type, columnFlags c] ++
    (if c.hasDefault then writeValue c.defaultValue else [])

def writeRecord (id : RecordId) (r : Record) : Bytes :=
  LittleEndian.encode 8 id ++ r.values.flatMap writeValue

namespace Table
open DiskM

variable {ι : Type} [TableIndex ι]

def writeRecords (t : Table ι) : List RecordId → Except Exn Bytes
  | [] => .ok []
  | id :: ids =>
    match t.records id with
    | none => .error (.outOfRange "unordered_map::at")
    | some r => do
      let rest ← writeRecords t ids
      return writeRecord id r ++ rest

/-- The bytes of the file. -/
def image (t : Table ι) : Except Exn Bytes := do
  let rows ← writeRecords t t.order
  return LittleEndian.encode 4 kMagic ++ LittleEndian.encode 4 kVersion ++ writeString t.name ++
    LittleEndian.encode 4 t.schema.columns.length ++ t.schema.columns.flatMap writeColumn ++
    LittleEndian.encode 8 t.nextId ++ LittleEndian.encode 8 t.order.length ++ rows

/-- The table goes to a temporary file, which then takes the name of the old one. -/
def save (path : Path) : TableM ι Unit := do
  bindDatPath path
  flushIndexes
  let t ← getObj
  let data ← fromExcept t.image
  let tmp : Path := { path with name := path.name ++ tmpSuffix }
  modifyFs fun fs => fs.write tmp (.bytes data)
  modifyFs fun fs => (fs.remove tmp).write path (.bytes data)

end Table

/-! ### Reading -/

/-- What is left of the file, and the number of reads so far, which tells the
arbitrary values apart. A stream that has failed has nothing left. -/
structure ReadState where
  rest : Bytes
  reads : Nat := 0

abbrev ReadM := EStateM Exn ReadState

/-- `read_pod` into a variable of `w` bytes that holds `old`: the bytes there are
become its low bytes. -/
def readPod (w old : Nat) : ReadM Nat := fun s =>
  let low := s.rest.take w
  .ok (LittleEndian.decode low + old % 256 ^ w / 256 ^ low.length * 256 ^ low.length)
    ⟨s.rest.drop w, s.reads + 1⟩

/-- The bytes of a string of length `n`; those that the file cuts short stay zero. -/
def readChars (n : Nat) : ReadM Str := fun s =>
  .ok (s.rest.take n ++ List.replicate (n - s.rest.length) 0) { s with rest := s.rest.drop n }

section Reading
variable (junk : Nat → Nat)

/-- `read_pod` into a variable that was not initialised. -/
def readFresh (w : Nat) : ReadM Nat := fun s => readPod w (junk s.reads) s

def readString : ReadM Str := do
  let n ← readFresh junk 4
  readChars n

def readValue : ReadM Value := do
  let tag ← readFresh junk 1
  if tag = 0 then return .null
  else if tag = 1 then
    let x ← readFresh junk 8
    return .int (UInt64.ofNat x).toInt64
  else if tag = 2 then
    let s ← readString junk
    return .str s
  else throw (.runtimeError "Corrupt table file: unknown value tag")

def readDefault (hasDefault : Bool) : ReadM Value :=
  if hasDefault then readValue junk else return .null

def readColumn : ReadM ColumnDef := do
  let name ← readString junk
  let t ← readFresh junk 1
  let flags ← readFresh junk 1
  let hasDefault := decide (UInt8.ofNat flags &&& 4 ≠ 0)
  let defaultValue ← readDefault junk hasDefault
  return { name, type := DataType.ofByte (UInt8.ofNat t)
           notNull := decide (UInt8.ofNat flags &&& 1 ≠ 0)
           indexed := decide (UInt8.ofNat flags &&& 2 ≠ 0), hasDefault, defaultValue }

def readColumns : Nat → ReadM (List ColumnDef)
  | 0 => return []
  | n + 1 => do
    let c ← readColumn junk
    let cs ← readColumns n
    return c :: cs

def readValues : Nat → ReadM (List Value)
  | 0 => return []
  | n + 1 => do
    let v ← readValue junk
    let vs ← readValues n
    return v :: vs

def readRecords (cols : Nat) : Nat → ReadM (List (RecordId × Record))
  | 0 => return []
  | n + 1 => do
    let id ← readFresh junk 8
    let values ← readValues junk cols
    let rest ← readRecords cols n
    return (id, { values }) :: rest

/-- What a file says up to its records. -/
structure TableImage where
  version : Nat
  name : Str
  columns : List ColumnDef
  nextId : RecordId
  rows : List (RecordId × Record)

/-- What follows the version. `nextId` is what the table that is loaded into has there
before. The memory that `reserve` and the strings ask for is always there: a length or count
too large for it throws in the code and does not here. -/
def readBody (version : Nat) (nextId : RecordId) : ReadM TableImage := do
  let name ← readString junk
  let cols ← readFresh junk 4
  let columns ← readColumns junk cols
  let nextId ← readPod 8 nextId
  let n ← readFresh junk 8
  let rows ← readRecords junk columns.length n
  return { version, name, columns, nextId, rows }

def readTable (nextId : RecordId) (path : Path) : ReadM TableImage := do
  let magic ← readFresh junk 4
  if magic ≠ kMagic then throw (.runtimeError ("Bad magic in " ++ path.text))
  else
    let version ← readFresh junk 4
    if version ≠ 1 ∧ version ≠ 2 ∧ version ≠ kVersion then
      throw (.runtimeError ("Unsupported version in " ++ path.text))
    else readBody junk version nextId

end Reading

/-- `emplace` keeps the first record of an id. -/
def recordsOf (rows : List (RecordId × Record)) : RecordId → Option Record :=
  fun id => rows.lookup id

def TableImage.table (im : TableImage) {ι : Type} : Table ι :=
  { name := im.name, schema := { columns := im.columns }, records := recordsOf im.rows
    order := im.rows.map Prod.fst, nextId := im.nextId }

namespace Table
open DiskM

variable {ι : Type} [TableIndex ι]

/-! ### Indexes built anew, for the older versions -/

/-- A NULL in a column that is indexed. -/
def assertIndexedColumnNotNull (t : Table ι) (col : Nat) : List RecordId → Except Exn Unit
  | [] => .ok ()
  | id :: ids =>
    match t.records id with
    | none => .error (.outOfRange "unordered_map::at")
    | some r =>
      if (r.value col).isNull then
        .error (.runtimeError ("Cannot bulk-build index on column '" ++ (t.columnName col).text ++
          "': NULL in record id " ++ toString id))
      else assertIndexedColumnNotNull t col ids

/-- `std::sort` by `ValueLess`. -/
def sortByKey (entries : List (Value × RecordId)) : List (Value × RecordId) :=
  entries.mergeSort fun a b => !decide ((b.1.compare a.1).1 < 0)

/-- An index over a list, in the file of its column. -/
def buildIndex (datPath : Path) (col : Nat) (entries : List (Value × RecordId)) :
    TableM ι Unit := do
  let disk : ι ← fromExcept (TableIndex.bulkBuild (sortByKey entries))
  modifyFs fun fs => fs.write (datPath.indexFile col) (.index (TableIndex.file disk))
  modifyObj fun t => { t with indexes := Function.update t.indexes col (some disk) }

/-- The keys of a column, record by record; ids without a record are skipped. -/
def columnEntries (t : Table ι) (col : Nat) (ids : List RecordId) : List (Value × RecordId) :=
  ids.filterMap fun id => (t.records id).map fun r => (r.value col, id)

def rebuildIndexesOnDisk : TableM ι Unit := do
  let t ← getObj
  match t.datPath with
  | none => return
  | some datPath =>
    modifyObj fun t => { t with indexes := fun _ => none }
    eachColumn (fun col => do
      fromExcept (assertIndexedColumnNotNull t col t.order)
      buildIndex datPath col (columnEntries t col t.order)) t.schema.indexedColumns

def readIds (w : ReadState) : Nat → List RecordId × ReadState
  | 0 => ([], w)
  | n + 1 =>
    match readPod 8 0 w with
    | .ok id w => let (ids, w) := readIds w n; (id :: ids, w)
    | .error _ w => ([], w)

/-- The block of a column of a version 2 file; one of a column without an index is
skipped. -/
def loadBlock (datPath : Path) (col : Nat) (ids : List RecordId) : TableM ι Unit := do
  let t ← getObj
  if !t.columnIsIndexed col then return
  else
    fromExcept (assertIndexedColumnNotNull t col t.order)
    modifyObj fun t => { t with indexes := Function.update t.indexes col none }
    buildIndex datPath col (columnEntries t col ids)

def loadBlocks (datPath : Path) : Nat → ReadState → TableM ι Unit
  | 0, _ => return
  | b + 1, w =>
    match readPod 4 0 w with
    | .error e _ => throw e
    | .ok col w =>
      match readPod 8 0 w with
      | .error e _ => throw e
      | .ok k w => do
        loadBlock datPath col (readIds w k).1
        loadBlocks datPath b (readIds w k).2

/-- The end of `load`: the files of version 3 have their indexes beside them. -/
def loadIndexes (path : Path) (version : Nat) (w : ReadState) : TableM ι Unit := do
  bindDatPath path
  if version = kVersion then return
  else if version = 1 then rebuildIndexesOnDisk
  else
    match readPod 4 0 w with
    | .error e _ => throw e
    | .ok idxCount w => loadBlocks path idxCount w

/-- A table that a failed load leaves is given up by its only caller. -/
def load (junk : Nat → Nat) (path : Path) : TableM ι Unit := do
  let t ← getObj
  let fs ← getFs
  match fs.read path with
  | some (.bytes data) =>
    match readTable junk t.nextId path { rest := data } with
    | .error e _ => throw e
    | .ok im w =>
      modifyObj fun t => { im.table with datPath := t.datPath }
      loadIndexes path im.version w
  | _ => throw (.runtimeError ("Cannot read " ++ path.text))

end Table
end CwDb.Storage
