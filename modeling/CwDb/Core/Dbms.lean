import CwDb.Storage.Database

/-! The server's databases and the one selected with USE.

`shutdown` is what a process that ends leaves behind: every file as the index that
has it open would have it, without what is only in a cache. `loadAll` is what the
next process makes of it. -/
namespace CwDb
open Foundation Storage

structure Dbms (ι : Type) where
  databases : AList fun _ : Str => Database ι := ∅
  /-- Empty: none selected. -/
  active : Str := []

abbrev DbmsM (ι : Type) [TableIndex ι] := DiskM ι (Dbms ι)

namespace Dbms
open DiskM

variable {ι : Type} [TableIndex ι]

def onDatabase {α : Type} (name : Str) (x : DatabaseM ι α) : DbmsM ι α :=
  onPart (fun s => s.databases.lookup name)
    (fun s db => { s with databases := s.databases.insert name db })
    (.outOfRange "unordered_map::at") x

theorem onDatabase_ok {α : Type} {name : Str} {x : DatabaseM ι α} {s : OnDisk ι (Dbms ι)}
    {d : Database ι} {a : α} {u : OnDisk ι (Database ι)} (h : s.obj.databases.lookup name = some d)
    (hx : x ⟨d, s.fs⟩ = .ok a u) : onDatabase name x s =
      .ok a ⟨{ s.obj with databases := s.obj.databases.insert name u.obj }, u.fs⟩ := by
  rw [onDatabase, onPart_ok h hx]

theorem onDatabase_error {α : Type} {name : Str} {x : DatabaseM ι α} {s : OnDisk ι (Dbms ι)}
    {d : Database ι} {e : Exn} {u : OnDisk ι (Database ι)}
    (h : s.obj.databases.lookup name = some d) (hx : x ⟨d, s.fs⟩ = .error e u) :
    onDatabase name x s =
      .error e ⟨{ s.obj with databases := s.obj.databases.insert name u.obj }, u.fs⟩ := by
  rw [onDatabase, onPart_error h hx]

/-- The name of the database, if it is there. -/
def requireDatabase (name : Str) : DbmsM ι Str := do
  let s ← getObj
  match s.databases.lookup name with
  | none => throw (.runtimeError ("Unknown database '" ++ name.text ++ "'"))
  | some _ => return name

def createDatabase (name : Str) : DbmsM ι Unit := do
  let s ← getObj
  if (s.databases.lookup name).isSome then
    throw (.runtimeError ("Database '" ++ name.text ++ "' already exists"))
  else
    modifyObj fun s => { s with databases := s.databases.insert name { name } }
    modifyFs fun fs => fs.createDirectory name
    onDatabase name (Database.setStorageDir name)

def dropDatabase (name : Str) : DbmsM ι Unit := do
  let s ← getObj
  match s.databases.lookup name with
  | none => throw (.runtimeError ("Unknown database '" ++ name.text ++ "'"))
  | some _ =>
    modifyObj fun s => { databases := s.databases.erase name
                         active := if s.active = name then [] else s.active }
    modifyFs fun fs => fs.erase name

def useDatabase (name : Str) : DbmsM ι Unit := do
  let _ ← requireDatabase name
  modifyObj fun s => { s with active := name }

def activeOrThrow : DbmsM ι Str := do
  let s ← getObj
  if s.active = [] then throw (.runtimeError "No database selected (use USE first)")
  else requireDatabase s.active

def saveDatabase (name : Str) : DbmsM ι Unit := do
  let s ← getObj
  match s.databases.lookup name with
  | none => return
  | some _ => onDatabase name (Database.saveTo name)

/-- A database under a name that has none yet. -/
def emplace (s : Dbms ι) (name : Str) (db : Database ι) : Dbms ι :=
  if (s.databases.lookup name).isSome then s
  else { s with databases := s.databases.insert name db }

def loadDatabases (junk : Nat → Nat) : List Str → DbmsM ι Unit
  | [] => return
  | name :: names => do
    let s ← get
    match Database.loadFrom junk name (⟨{ name }, s.fs⟩ : OnDisk ι (Database ι)) with
    | .error e t =>
      modifyFs fun _ => t.fs
      throw e
    | .ok () t =>
      modifyFs fun _ => t.fs
      modifyObj fun s => s.emplace name t.obj
      loadDatabases junk names

def loadAll (junk : Nat → Nat) : DbmsM ι Unit := do
  modifyObj fun s => { s with databases := ∅ }
  let fs ← getFs
  loadDatabases junk fs.keys

/-! ### The end of the process -/

/-- The file of an index, as it is on the disk. -/
def syncIndexes (t : Table ι) (fs : FileSystem ι) : List Nat → FileSystem ι
  | [] => fs
  | col :: cols =>
    match t.datPath, t.indexes col with
    | some datPath, some disk =>
      syncIndexes t (fs.write (datPath.indexFile col) (.index (TableIndex.file disk))) cols
    | _, _ => syncIndexes t fs cols

def syncTables (fs : FileSystem ι) : List (Sigma fun _ : Str => Table ι) → FileSystem ι
  | [] => fs
  | ⟨_, t⟩ :: rest => syncTables (syncIndexes t fs (List.range t.schema.columns.length)) rest

def syncDatabases (fs : FileSystem ι) : List (Sigma fun _ : Str => Database ι) → FileSystem ι
  | [] => fs
  | ⟨_, db⟩ :: rest => syncDatabases (syncTables fs db.tables.entries) rest

/-- The data directory a process leaves that ends now. -/
def shutdown (s : OnDisk ι (Dbms ι)) : FileSystem ι := syncDatabases s.fs s.obj.databases.entries

end Dbms
end CwDb
