import CwDb.Core.Saving
import CwDb.Storage.TableMirror

/-! Databases over an index that tracks the ideal one, beside databases over the ideal one.

Twins are mirrors of which the ideal one is kept: sound, and not too large for the
indexes. What a database or the server does to its tables and files has the same outcome
on twins and leaves twins. -/
namespace CwDb
open Foundation Storage DiskM

variable {ι : Type} [TableIndex ι] {lost : Lost} {T : Tracking ι lost}

namespace Storage

/-! ### Tables -/

namespace Table

/-- Mirrors, of which the ideal one is kept. -/
structure Twins (T : Tracking ι lost) (t : Table ι) (u : Table (KeyMap lost)) : Prop where
  mirrors : t.Mirrors T u
  kept : u.Kept T

/-- Twins beside files that mirror each other. -/
abbrev TwinsOn (T : Tracking ι lost) :
    OnDisk ι (Table ι) → OnDisk (KeyMap lost) (Table (KeyMap lost)) → Prop := OnMirror T (Twins T)

variable {t : Table ι} {u u' : Table (KeyMap lost)} {s : OnDisk ι (Table ι)}
  {v : OnDisk (KeyMap lost) (Table (KeyMap lost))}

theorem TwinsOn.mirrors (h : TwinsOn T s v) : MirrorsOn T s v := ⟨h.obj.mirrors, h.files⟩

/-- What agrees on mirrors and keeps the ideal table. -/
theorem TwinsOn.of_agree {α : Type} {x : TableM ι α} {y : TableM (KeyMap lost) α}
    (hxy : Agree (MirrorsOn T) (x s) (y v)) (hkept : (stateOf (y v)).obj.Kept T) :
    Agree (TwinsOn T) (x s) (y v) :=
  ⟨hxy.outcome, ⟨hxy.state.obj, hkept⟩, hxy.state.files⟩

theorem Kept.rebound (h : u.Kept T) (hre : u.Rebound u') : u'.Kept T := by
  obtain ⟨p, rfl⟩ := hre
  exact {
    bound := rfl
    fresh := h.fresh
    agree := h.agree
    typed := h.typed
    order_nodup := h.order_nodup
    mem_order := h.mem_order
    lt_nextId := h.lt_nextId
    conforming := h.conforming
    keyed := h.keyed
    rows := h.rows
    ids := h.ids }

theorem Mirrors.writeRecords (h : t.Mirrors T u) (ids : List RecordId) :
    t.writeRecords ids = u.writeRecords ids := by
  induction ids with
  | nil => rfl
  | cons id ids ih => rw [Table.writeRecords, Table.writeRecords, h.records, ih]

theorem Mirrors.image (h : t.Mirrors T u) : t.image = u.image := by
  rw [Table.image, Table.image, h.writeRecords, h.order, h.name, h.schema, h.nextId]

theorem save_agree (h : MirrorsOn T s v) (path : Path) :
    Agree (MirrorsOn T) (save path s) (save path v) := by
  refine (bindDatPath_agree h path).bind fun _ s v _ h => ?_
  refine (flushIndexes_agree h).bind fun _ s v _ h => ?_
  rw [getObj_bind_apply, getObj_bind_apply, h.obj.image]
  refine (agree_fromExcept v.obj.image h).bind fun data s v _ h => ?_
  exact .ok () ⟨h.obj, ((h.files.write _ (.bytes data)).remove _).write path (.bytes data)⟩

theorem bindDatPath_twins (h : TwinsOn T s v) (path : Path) :
    Agree (TwinsOn T) (bindDatPath path s) (bindDatPath path v) :=
  TwinsOn.of_agree (bindDatPath_agree h.mirrors path)
    (h.obj.kept.rebound (bindDatPath_rebound h.obj.kept.opened path v (.refl h.obj.kept.opened)))

theorem save_twins (h : TwinsOn T s v) (path : Path) :
    Agree (TwinsOn T) (save path s) (save path v) :=
  TwinsOn.of_agree (save_agree h.mirrors path)
    (h.obj.kept.rebound (save_rebound h.obj.kept.opened path v (.refl h.obj.kept.opened)))

end Table
/-! ### Databases -/

namespace Database

/-- Databases of twins, in a directory. -/
structure Twins (T : Tracking ι lost) (d : Database ι) (e : Database (KeyMap lost)) : Prop where
  name : d.name = e.name
  storageDir : d.storageDir = e.storageDir
  placed : e.storageDir.isSome = true
  tables : AListRel (Table.Twins T) d.tables e.tables

abbrev TwinsOn (T : Tracking ι lost) :
    OnDisk ι (Database ι) → OnDisk (KeyMap lost) (Database (KeyMap lost)) → Prop :=
  OnMirror T (Twins T)

variable {d : Database ι} {e : Database (KeyMap lost)} {s : OnDisk ι (Database ι)}
  {v : OnDisk (KeyMap lost) (Database (KeyMap lost))}

theorem Twins.insert (h : d.Twins T e) (name : Str) {t : Table ι} {u : Table (KeyMap lost)}
    (htu : t.Twins T u) : Twins T { d with tables := d.tables.insert name t }
      { e with tables := e.tables.insert name u } :=
  ⟨h.name, h.storageDir, h.placed, h.tables.insert name htu⟩

theorem Twins.isSome (h : d.Twins T e) (name : Str) :
    (d.tables.lookup name).isSome = (e.tables.lookup name).isSome :=
  rel_isSome (h.tables.lookup name)

theorem onTable_twins {α : Type} (h : TwinsOn T s v) (name : Str) {x : TableM ι α}
    {y : TableM (KeyMap lost) α} (hxy : ∀ t u, s.obj.tables.lookup name = some t →
      v.obj.tables.lookup name = some u → t.Twins T u →
        Agree (Table.TwinsOn T) (x ⟨t, s.fs⟩) (y ⟨u, v.fs⟩)) :
    Agree (TwinsOn T) (onTable name x s) (onTable name y v) :=
  onPart_agree h (h.obj.tables.lookup name) (fun _ _ htu => h.obj.insert name htu) hxy

theorem eachTable_agree {f : Str → DatabaseM ι Unit} {g : Str → DatabaseM (KeyMap lost) Unit}
    (hfg : ∀ name s v, TwinsOn T s v → Agree (TwinsOn T) (f name s) (g name v)) (names : List Str) :
    ∀ s v, TwinsOn T s v → Agree (TwinsOn T) (eachTable f names s) (eachTable g names v) := by
  induction names with
  | nil =>
    intro s v h
    exact .ok () h
  | cons name names ih =>
    intro s v h
    exact (hfg name s v h).bind fun _ s v _ h => ih s v h

theorem setStorageDir_twins (h : TwinsOn T s v) (dir : Str) :
    Agree (TwinsOn T) (setStorageDir dir s) (setStorageDir dir v) := by
  rw [setStorageDir, setStorageDir, modifyObj_bind_apply, modifyObj_bind_apply,
    getObj_bind_apply, getObj_bind_apply]
  show Agree _ (eachTable _ s.obj.tables.keys _) (eachTable _ v.obj.tables.keys _)
  rw [h.obj.tables.keys]
  refine eachTable_agree (fun name s v h => onTable_twins h name fun t u _ _ htu => ?_) _ _ _
    ⟨⟨h.obj.name, rfl, rfl, h.obj.tables⟩, h.files⟩
  exact Table.bindDatPath_twins ⟨htu, h.files⟩ _

theorem Twins.keepsFile (h : d.Twins T e) (fname : Str) : d.keepsFile fname = e.keepsFile fname := by
  rw [Database.keepsFile, Database.keepsFile]
  cases sweptStem fname with
  | none => rfl
  | some table => exact h.isSome table

theorem sweepDirectory_twins (dir : Str) (fnames : List Str) : ∀ s v, TwinsOn T s v →
    Agree (TwinsOn T) (sweepDirectory dir fnames s) (sweepDirectory dir fnames v) := by
  induction fnames with
  | nil =>
    intro s v h
    exact .ok () h
  | cons fname fnames ih =>
    intro s v h
    rw [sweepDirectory, sweepDirectory, getObj_bind_apply, getObj_bind_apply, h.obj.keepsFile]
    by_cases hkeeps : (!v.obj.keepsFile fname) = true
    · rw [if_pos hkeeps, if_pos hkeeps]
      exact ih _ _ ⟨h.obj, h.files.remove _⟩
    · rw [if_neg hkeeps, if_neg hkeeps]
      exact ih s v h

theorem saveTo_twins (h : TwinsOn T s v) (dir : Str) :
    Agree (TwinsOn T) (saveTo dir s) (saveTo dir v) := by
  rw [saveTo, saveTo, modifyFs_bind_apply, modifyFs_bind_apply]
  have hdir : TwinsOn T ⟨s.obj, s.fs.createDirectory dir⟩ ⟨v.obj, v.fs.createDirectory dir⟩ :=
    ⟨h.obj, h.files.createDirectory dir⟩
  refine (setStorageDir_twins hdir dir).bind fun _ s v _ h => ?_
  refine (setStorageDir_twins h dir).bind fun _ s v _ h => ?_
  rw [getFs_bind_apply, getFs_bind_apply, (h.files.getD dir .empty).keys]
  refine (sweepDirectory_twins dir _ s v h).bind fun _ s v _ h => ?_
  rw [getObj_bind_apply, getObj_bind_apply, h.obj.tables.keys]
  refine eachTable_agree (fun name s v h => onTable_twins h name fun t u _ _ htu => ?_) _ _ _ h
  exact Table.save_twins ⟨htu, h.files⟩ _

theorem dropTable_twins (h : TwinsOn T s v) (name : Str) :
    Agree (TwinsOn T) (dropTable name s) (dropTable name v) := by
  rw [dropTable, dropTable, getObj_bind_apply, getObj_bind_apply]
  have hlookup := h.obj.tables.lookup name
  cases hv : v.obj.tables.lookup name with
  | none =>
    rw [hv] at hlookup
    rw [rel_none hlookup, Database.unknownTable, h.obj.name]
    exact .error _ h
  | some u =>
    rw [hv] at hlookup
    obtain ⟨t, ht, -⟩ := rel_some hlookup
    rw [ht]
    exact .ok () ⟨⟨h.obj.name, h.obj.storageDir, h.obj.placed, h.obj.tables.erase name⟩, h.files⟩

/-- A table may be created whose indexed columns are of keys, where no file is its index. -/
theorem createTable_twins (h : TwinsOn T s v) (name : Str) {schema : TableSchema}
    (hkeyed : Table.Keyed T.Key schema)
    (hfs : v.obj.tables.lookup name = none → ∀ dir, v.obj.storageDir = some dir →
      Table.NoIndexes v.fs (datPathOf dir name)) :
    Agree (TwinsOn T) (createTable name schema s) (createTable name schema v) := by
  rw [createTable, createTable, getObj_bind_apply, getObj_bind_apply, h.obj.isSome, h.obj.name,
    h.obj.storageDir]
  by_cases hthere : (v.obj.tables.lookup name).isSome = true
  · rw [if_pos hthere, if_pos hthere]
    exact .error _ h
  · rw [if_neg hthere, if_neg hthere, modifyObj_bind_apply, modifyObj_bind_apply]
    obtain ⟨dir, hdir⟩ := Option.isSome_iff_exists.mp h.obj.placed
    rw [hdir]
    obtain ⟨gs, hnew⟩ := Table.bindDatPath_new lost name schema (datPathOf dir name)
      (hfs (by simpa using hthere) dir hdir)
    have hmirrors : Table.MirrorsOn T ⟨{ name, schema }, s.fs⟩ ⟨{ name, schema }, v.fs⟩ :=
      ⟨Table.mirrors_new T name schema, h.files⟩
    have hbind := Table.bindDatPath_agree hmirrors (datPathOf dir name)
    rw [hnew] at hbind
    obtain ⟨s', hs', hbound⟩ := hbind.of_ok
    have hkept : (Table.emptyTable lost name schema (datPathOf dir name) schema.indexedColumns).Kept T := by
      exact {
        toSound := Table.emptyTable_sound lost name schema (datPathOf dir name)
        keyed := hkeyed
        rows := fun _ => Nat.zero_le _
        ids := show 1 ≤ 2 ^ 64 by decide }
    have hreal := onTable_ok (s := ⟨{ s.obj with
      tables := s.obj.tables.insert name { name, schema } }, s.fs⟩) (AList.lookup_insert _) hs'
    have hideal := onTable_ok (s := ⟨{ v.obj with
      tables := v.obj.tables.insert name { name, schema } }, v.fs⟩) (AList.lookup_insert _) hnew
    simp only [AList.insert_insert] at hreal hideal
    rw [hdir] at hideal
    show Agree _ (onTable name _ _) (onTable name _ _)
    rw [hreal, hideal, ← hdir]
    exact .ok () ⟨h.obj.insert name ⟨hbound.obj, hkept⟩, hbound.files⟩

end Database
end Storage

/-! ### The server -/

namespace Dbms

/-- Servers of twins. -/
structure Twins (T : Tracking ι lost) (a : Dbms ι) (b : Dbms (KeyMap lost)) : Prop where
  active : a.active = b.active
  databases : AListRel (Database.Twins T) a.databases b.databases

abbrev TwinsOn (T : Tracking ι lost) :
    OnDisk ι (Dbms ι) → OnDisk (KeyMap lost) (Dbms (KeyMap lost)) → Prop := OnMirror T (Twins T)

variable {s : OnDisk ι (Dbms ι)} {v : OnDisk (KeyMap lost) (Dbms (KeyMap lost))}

theorem onDatabase_twins {α : Type} (h : TwinsOn T s v) (name : Str) {x : DatabaseM ι α}
    {y : DatabaseM (KeyMap lost) α} (hxy : ∀ d e, s.obj.databases.lookup name = some d →
      v.obj.databases.lookup name = some e → d.Twins T e →
        Agree (Database.TwinsOn T) (x ⟨d, s.fs⟩) (y ⟨e, v.fs⟩)) :
    Agree (TwinsOn T) (onDatabase name x s) (onDatabase name y v) :=
  onPart_agree h (h.obj.databases.lookup name)
    (fun _ _ hde => ⟨h.obj.active, h.obj.databases.insert name hde⟩) hxy

theorem requireDatabase_twins (h : TwinsOn T s v) (name : Str) :
    Agree (TwinsOn T) (requireDatabase name s) (requireDatabase name v) := by
  rw [requireDatabase, requireDatabase, getObj_bind_apply, getObj_bind_apply]
  have hlookup := h.obj.databases.lookup name
  cases hv : v.obj.databases.lookup name with
  | none =>
    rw [hv] at hlookup
    rw [rel_none hlookup]
    exact .error _ h
  | some e =>
    rw [hv] at hlookup
    obtain ⟨d, hd, -⟩ := rel_some hlookup
    rw [hd]
    exact .ok _ h

theorem activeOrThrow_twins (h : TwinsOn T s v) :
    Agree (TwinsOn T) (activeOrThrow s) (activeOrThrow v) := by
  rw [activeOrThrow, activeOrThrow, getObj_bind_apply, getObj_bind_apply, h.obj.active]
  by_cases hactive : v.obj.active = []
  · rw [if_pos hactive, if_pos hactive]
    exact .error _ h
  · rw [if_neg hactive, if_neg hactive]
    exact requireDatabase_twins h _

theorem createDatabase_twins (h : TwinsOn T s v) (name : Str) :
    Agree (TwinsOn T) (createDatabase name s) (createDatabase name v) := by
  rw [createDatabase, createDatabase, getObj_bind_apply, getObj_bind_apply,
    rel_isSome (h.obj.databases.lookup name)]
  by_cases hthere : (v.obj.databases.lookup name).isSome = true
  · rw [if_pos hthere, if_pos hthere]
    exact .error _ h
  · rw [if_neg hthere, if_neg hthere, modifyObj_bind_apply, modifyObj_bind_apply,
      modifyFs_bind_apply, modifyFs_bind_apply]
    have hreal := onDatabase_ok (s := ⟨{ s.obj with
      databases := s.obj.databases.insert name { name } }, s.fs.createDirectory name⟩)
      (AList.lookup_insert _) (rfl : Database.setStorageDir name _ = _)
    have hideal := onDatabase_ok (s := ⟨{ v.obj with
      databases := v.obj.databases.insert name { name } }, v.fs.createDirectory name⟩)
      (AList.lookup_insert _) (rfl : Database.setStorageDir name _ = _)
    simp only [AList.insert_insert] at hreal hideal
    show Agree _ (onDatabase name _ _) (onDatabase name _ _)
    rw [hreal, hideal]
    exact .ok () ⟨⟨h.obj.active, h.obj.databases.insert name ⟨rfl, rfl, rfl, .empty⟩⟩,
      h.files.createDirectory name⟩

theorem dropDatabase_twins (h : TwinsOn T s v) (name : Str) :
    Agree (TwinsOn T) (dropDatabase name s) (dropDatabase name v) := by
  rw [dropDatabase, dropDatabase, getObj_bind_apply, getObj_bind_apply]
  have hlookup := h.obj.databases.lookup name
  cases hv : v.obj.databases.lookup name with
  | none =>
    rw [hv] at hlookup
    rw [rel_none hlookup]
    exact .error _ h
  | some e =>
    rw [hv] at hlookup
    obtain ⟨d, hd, -⟩ := rel_some hlookup
    rw [hd]
    refine .ok () ⟨⟨?_, h.obj.databases.erase name⟩, h.files.erase name⟩
    show (if s.obj.active = name then [] else s.obj.active) = _
    rw [h.obj.active]

theorem useDatabase_twins (h : TwinsOn T s v) (name : Str) :
    Agree (TwinsOn T) (useDatabase name s) (useDatabase name v) :=
  (requireDatabase_twins h name).bind fun _ _ _ _ h => .ok () ⟨⟨rfl, h.obj.databases⟩, h.files⟩

theorem saveDatabase_twins (h : TwinsOn T s v) (name : Str) :
    Agree (TwinsOn T) (saveDatabase name s) (saveDatabase name v) := by
  rw [saveDatabase, saveDatabase, getObj_bind_apply, getObj_bind_apply]
  have hlookup := h.obj.databases.lookup name
  cases hv : v.obj.databases.lookup name with
  | none =>
    rw [hv] at hlookup
    rw [rel_none hlookup]
    exact .ok () h
  | some e =>
    rw [hv] at hlookup
    obtain ⟨d, hd, -⟩ := rel_some hlookup
    rw [hd]
    exact onDatabase_twins h name fun d e _ _ hde => Database.saveTo_twins ⟨hde, h.files⟩ name

end Dbms
end CwDb
