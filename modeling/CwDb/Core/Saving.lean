import CwDb.Core.Dbms
import CwDb.Storage.TableRows

/-! Saving a database leaves its tables as they are.

`saveTo` binds every table to its file once more, opens the indexes that are not
open yet and writes the files. Of a table whose indexes are open nothing changes
but the path it is bound to (`Rebound`), whatever becomes of the saving. -/
namespace CwDb
open Foundation Storage DiskM

variable {lost : Lost}

namespace Storage
namespace Table

/-- The same table, maybe bound to another path. -/
def Rebound {ι : Type} (t t' : Table ι) : Prop := ∃ p, t' = { t with datPath := some p }

theorem Rebound.refl {ι : Type} {t : Table ι} (h : t.Opened) : Rebound t t := by
  obtain ⟨p, hp⟩ := Option.isSome_iff_exists.mp h.bound
  refine ⟨p, ?_⟩
  rw [← hp]

theorem Rebound.opened {ι : Type} {t t' : Table ι} (h : Rebound t t') (ht : t.Opened) :
    t'.Opened := by
  obtain ⟨p, rfl⟩ := h
  exact ⟨rfl, ht.isOpen⟩

theorem bindDatPath_of_opened {ι : Type} [TableIndex ι] {s : OnDisk ι (Table ι)}
    (h : s.obj.Opened) (p : Path) :
    bindDatPath p s = .ok () { s with obj.datPath := some p } := by
  rw [bindDatPath, modifyObj_bind_apply]
  exact openIndexes_of_opened ⟨rfl, h.isOpen⟩

/-- Ideal indexes have nothing to flush. -/
theorem flushIndexes_still (s : OnDisk (KeyMap lost) (Table (KeyMap lost))) :
    flushIndexes s = .ok () s := by
  rw [flushIndexes, getObj_bind_apply]
  refine eachColumn_of_still fun col _ => ?_
  rw [flushIndex, getObj_bind_apply]
  cases hd : s.obj.indexes col with
  | none => rfl
  | some disk => exact onIndex_still hd rfl

variable {t : Table (KeyMap lost)}

theorem bindDatPath_rebound (ht : t.Opened) (p : Path) :
    Keeps (fun s : OnDisk (KeyMap lost) (Table (KeyMap lost)) => Rebound t s.obj)
      (bindDatPath p) := by
  intro s hs
  rw [bindDatPath_of_opened (hs.opened ht)]
  obtain ⟨q, hq⟩ := hs
  exact ⟨p, by rw [stateOf_ok, hq]⟩

theorem save_rebound (ht : t.Opened) (p : Path) :
    Keeps (fun s : OnDisk (KeyMap lost) (Table (KeyMap lost)) => Rebound t s.obj) (save p) := by
  refine keeps_bind (bindDatPath_rebound ht p) fun _ => keeps_bind ?_ fun _ => ?_
  · intro s hs
    rwa [flushIndexes_still]
  · exact keeps_bind (fun _ h => h) fun _ => keeps_bind (keeps_fromExcept _) fun _ =>
      keeps_bind (fun _ h => h) fun _ => fun _ h => h

end Table

/-! ### In a database -/

namespace Database

/-- The database has the table, maybe bound to another path. -/
def Has (name : Str) (t : Table (KeyMap lost)) (s : OnDisk (KeyMap lost) (Database (KeyMap lost))) :
    Prop := ∃ t', s.obj.tables.lookup name = some t' ∧ t.Rebound t'

variable {name : Str} {t : Table (KeyMap lost)}

/-- Work on one table keeps the others as they are. -/
theorem onTable_has {α : Type} {x : TableM (KeyMap lost) α}
    (hx : Keeps (fun s : OnDisk (KeyMap lost) (Table (KeyMap lost)) => t.Rebound s.obj) x)
    (other : Str) : Keeps (Has name t) (onTable other x) := by
  rintro s ⟨t', ht', hre⟩
  cases hother : s.obj.tables.lookup other with
  | none =>
    rw [onTable, onPart_missing hother]
    exact ⟨t', ht', hre⟩
  | some u =>
    rw [onTable, stateOf_onPart hother]
    by_cases hname : name = other
    · subst hname
      rw [ht'] at hother
      injection hother with hother
      exact ⟨_, AList.lookup_insert _, hx ⟨u, s.fs⟩ (hother ▸ hre)⟩
    · exact ⟨t', by rw [AList.lookup_insert_ne hname]; exact ht', hre⟩

theorem eachTable_has {f : Str → DatabaseM (KeyMap lost) Unit}
    (hf : ∀ other, Keeps (Has name t) (f other)) (names : List Str) :
    Keeps (Has name t) (eachTable f names) := by
  induction names with
  | nil => exact keeps_pure ()
  | cons other names ih => exact keeps_bind (hf other) fun _ => ih

theorem setStorageDir_has (ht : t.Opened) (dir : Str) :
    Keeps (Has name t) (setStorageDir (ι := KeyMap lost) dir) := by
  refine keeps_bind (fun _ h => h) fun _ => ?_
  exact keeps_bind (fun _ h => h) fun db =>
    eachTable_has (fun other => onTable_has (Table.bindDatPath_rebound ht _) other) _

theorem sweepDirectory_has (dir : Str) (fnames : List Str) :
    Keeps (Has name t) (sweepDirectory (ι := KeyMap lost) dir fnames) := by
  induction fnames with
  | nil => exact keeps_pure ()
  | cons fname fnames ih =>
    refine keeps_bind (fun _ h => h) fun db => ?_
    split
    · exact keeps_bind (fun _ h => h) fun _ => ih
    · exact ih

theorem saveTo_has (ht : t.Opened) (dir : Str) :
    Keeps (Has name t) (saveTo (ι := KeyMap lost) dir) := by
  refine keeps_bind (fun _ h => h) fun _ => keeps_bind (setStorageDir_has ht dir) fun _ =>
    keeps_bind (setStorageDir_has ht dir) fun _ => keeps_bind (fun _ h => h) fun _ =>
      keeps_bind (sweepDirectory_has dir _) fun _ => keeps_bind (fun _ h => h) fun _ => ?_
  exact eachTable_has (fun other => onTable_has (Table.save_rebound ht _) other) _

end Database
end Storage

/-! ### In the server -/

namespace Dbms

def tableAt {ι : Type} (s : Dbms ι) (db tbl : Str) : Option (Table ι) :=
  (s.databases.lookup db).bind fun d => d.tables.lookup tbl

/-- The server has the table, maybe bound to another path. -/
def Has (db tbl : Str) (t : Table (KeyMap lost))
    (s : OnDisk (KeyMap lost) (Dbms (KeyMap lost))) : Prop :=
  ∃ t', s.obj.tableAt db tbl = some t' ∧ t.Rebound t'

variable {db tbl : Str} {t : Table (KeyMap lost)}

theorem onDatabase_has {α : Type} {x : DatabaseM (KeyMap lost) α}
    (hx : Keeps (Database.Has tbl t) x) (other : Str) :
    Keeps (Has db tbl t) (onDatabase other x) := by
  rintro s ⟨t', ht', hre⟩
  cases hother : s.obj.databases.lookup other with
  | none =>
    rw [onDatabase, onPart_missing hother]
    exact ⟨t', ht', hre⟩
  | some d =>
    rw [onDatabase, stateOf_onPart hother]
    by_cases hdb : db = other
    · subst hdb
      rw [tableAt, hother] at ht'
      obtain ⟨u, hu, hre'⟩ := hx ⟨d, s.fs⟩ ⟨t', ht', hre⟩
      exact ⟨u, by rw [tableAt, AList.lookup_insert]; exact hu, hre'⟩
    · exact ⟨t', by rw [tableAt, AList.lookup_insert_ne hdb]; exact ht', hre⟩

/-- Saving a database keeps every open table, maybe bound to another path. -/
theorem saveDatabase_has (ht : t.Opened) (name : Str) :
    Keeps (Has db tbl t) (saveDatabase (ι := KeyMap lost) name) := by
  refine keeps_bind (fun _ h => h) fun s => ?_
  cases s.databases.lookup name with
  | none => exact keeps_pure ()
  | some d => exact onDatabase_has (Database.saveTo_has ht name) name

end Dbms
end CwDb
