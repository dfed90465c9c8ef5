import CwDb.Storage.TableFile

/-! Databases.

A database holds its tables by name and the directory they live in. `saveTo` first
sweeps the directory: a file whose name says it belongs to a table the database
does not have is deleted. Then every table is saved. -/
namespace CwDb.Storage
open Foundation

structure Database (ι : Type) where
  name : Str := []
  tables : AList fun _ : Str => Table ι := ∅
  storageDir : Option Str := none

abbrev DatabaseM (ι : Type) [TableIndex ι] := DiskM ι (Database ι)

/-- The file of a table in a directory. -/
def datPathOf (dir table : Str) : Path := { dir, name := table ++ datSuffix }

/-- The table a file belongs to by its name; none for a file of no table. -/
def sweptStem (fname : Str) : Option Str :=
  if fname.length < 5 then none
  else if extension fname = datSuffix then some (stem fname)
  else (findSub idxSuffix fname).map fun i => fname.take i

namespace Database
open DiskM

variable {ι : Type} [TableIndex ι]

def unknownTable (db : Database ι) (name : Str) : Exn :=
  .runtimeError ("Unknown table '" ++ name.text ++ "' in database '" ++ db.name.text ++ "'")

/-- Work on a table that is known to be there. -/
def onTable {α : Type} (name : Str) (x : TableM ι α) : DatabaseM ι α :=
  onPart (fun db => db.tables.lookup name)
    (fun db t => { db with tables := db.tables.insert name t }) (.outOfRange "unordered_map::at") x

theorem onTable_ok {α : Type} {name : Str} {x : TableM ι α} {s : OnDisk ι (Database ι)}
    {t : Table ι} {a : α} {u : OnDisk ι (Table ι)} (h : s.obj.tables.lookup name = some t)
    (hx : x ⟨t, s.fs⟩ = .ok a u) : onTable name x s =
      .ok a ⟨{ s.obj with tables := s.obj.tables.insert name u.obj }, u.fs⟩ := by
  rw [onTable, onPart_ok h hx]

theorem onTable_error {α : Type} {name : Str} {x : TableM ι α} {s : OnDisk ι (Database ι)}
    {t : Table ι} {e : Exn} {u : OnDisk ι (Table ι)} (h : s.obj.tables.lookup name = some t)
    (hx : x ⟨t, s.fs⟩ = .error e u) : onTable name x s =
      .error e ⟨{ s.obj with tables := s.obj.tables.insert name u.obj }, u.fs⟩ := by
  rw [onTable, onPart_error h hx]

def requireTable (name : Str) : DatabaseM ι (Table ι) := do
  let db ← getObj
  match db.tables.lookup name with
  | none => throw (db.unknownTable name)
  | some t => return t

/-- A loop over tables. -/
def eachTable (f : Str → DatabaseM ι Unit) : List Str → DatabaseM ι Unit
  | [] => return
  | name :: names => do
    f name
    eachTable f names

def setStorageDir (dir : Str) : DatabaseM ι Unit := do
  modifyObj fun db => { db with storageDir := some dir }
  let db ← getObj
  eachTable (fun name => onTable name (Table.bindDatPath (datPathOf dir name))) db.tables.keys

def createTable (name : Str) (schema : TableSchema) : DatabaseM ι Unit := do
  let db ← getObj
  if (db.tables.lookup name).isSome then
    throw (.runtimeError ("Table '" ++ name.text ++ "' already exists in '" ++ db.name.text ++ "'"))
  else
    modifyObj fun db => { db with tables := db.tables.insert name { name, schema } }
    match db.storageDir with
    | none => return
    | some dir => onTable name (Table.bindDatPath (datPathOf dir name))

def dropTable (name : Str) : DatabaseM ι Unit := do
  let db ← getObj
  match db.tables.lookup name with
  | none => throw (db.unknownTable name)
  | some _ => modifyObj fun db => { db with tables := db.tables.erase name }

/-- The files of a directory that stay: those of no table, and of a table there is. -/
def keepsFile (db : Database ι) (fname : Str) : Bool :=
  match sweptStem fname with
  | none => true
  | some table => (db.tables.lookup table).isSome

def sweepDirectory (dir : Str) : List Str → DatabaseM ι Unit
  | [] => return
  | fname :: fnames => do
    let db ← getObj
    if !db.keepsFile fname then modifyFs fun fs => fs.remove { dir, name := fname }
    sweepDirectory dir fnames

def saveTo (dir : Str) : DatabaseM ι Unit := do
  modifyFs fun fs => fs.createDirectory dir
  setStorageDir dir
  setStorageDir dir
  let fs ← getFs
  sweepDirectory dir (((fs.lookup dir).getD ∅).keys)
  let db ← getObj
  eachTable (fun name => onTable name (Table.save (datPathOf dir name))) db.tables.keys

/-- A table under a name that has none yet. -/
def emplace (db : Database ι) (name : Str) (t : Table ι) : Database ι :=
  if (db.tables.lookup name).isSome then db
  else { db with tables := db.tables.insert name t }

/-- The tables of a directory, from its files. -/
def loadTables (junk : Nat → Nat) (dir : Str) : List Str → DatabaseM ι Unit
  | [] => return
  | fname :: fnames => do
    if extension fname = datSuffix then
      let s ← get
      match Table.load junk { dir, name := fname } (⟨{}, s.fs⟩ : OnDisk ι (Table ι)) with
      | .error e t =>
        modifyFs fun _ => t.fs
        throw e
      | .ok () t =>
        modifyFs fun _ => t.fs
        modifyObj fun db => db.emplace (stem fname) t.obj
    loadTables junk dir fnames

def loadFrom (junk : Nat → Nat) (dir : Str) : DatabaseM ι Unit := do
  modifyObj fun db => { db with tables := ∅, storageDir := some dir }
  let fs ← getFs
  match fs.lookup dir with
  | none => return
  | some d => loadTables junk dir d.keys

end Database
end CwDb.Storage
