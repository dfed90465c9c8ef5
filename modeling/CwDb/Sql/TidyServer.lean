import CwDb.Core.Tidy
import CwDb.Sql.Statements

/-! A server stays tidy.

Work on the rows of a table opens nothing that is not open, so it touches no file. The
statements that make, save or drop tables and databases leave every file with a database
that keeps it (`exec_tidy`). -/
namespace CwDb
open Foundation Storage DiskM

variable {ι : Type} [TableIndex ι]

/-! ### Rows -/

namespace Storage.Table
variable {fs : FileSystem ι}

theorem still_openIndexes : Keeps (Still fs) (openIndexes (ι := ι)) := by
  intro s h
  rwa [openIndexes_of_opened h.opened]

/-- A change of the records changes no index. -/
theorem still_modifyObj {f : Table ι → Table ι} (hf : ∀ t, t.Opened → (f t).Opened) :
    Keeps (Still fs) (modifyObj f) := fun s h => ⟨hf s.obj h.opened, h.files⟩

theorem still_indexFind (col : Nat) (key : Value) : Keeps (Still fs) (indexFind (ι := ι) col key) := by
  refine keeps_bind keeps_getObj fun t => ?_
  split
  · exact keeps_pure _
  · exact keeps_bind (still_onIndex col _ _) fun _ => keeps_pure _

theorem still_indexCollectRange (col : Nat) (lo : Option Value) (loInclusive : Bool)
    (hi : Option Value) (hiInclusive : Bool) :
    Keeps (Still fs) (indexCollectRange (ι := ι) col lo loInclusive hi hiInclusive) := by
  refine keeps_bind keeps_getObj fun t => ?_
  split
  · exact keeps_pure _
  · exact still_onIndex col _ _

theorem still_mutableIndex (col : Nat) : Keeps (Still fs) (mutableIndex (ι := ι) col) := by
  refine keeps_bind keeps_getObj fun t => ?_
  split
  · exact keeps_throw _
  · split
    · exact keeps_throw _
    · refine keeps_bind still_openIndexes fun _ => keeps_bind keeps_getObj fun u => ?_
      split
      · exact keeps_pure _
      · exact keeps_throw _

theorem still_enforceConstraints (r : Record) (existingId : Option RecordId) :
    Keeps (Still fs) (enforceConstraints (ι := ι) r existingId) := by
  refine keeps_bind keeps_getObj fun t => ?_
  split
  · exact keeps_throw _
  · refine keeps_bind (keeps_fromExcept _) fun _ => keeps_eachColumn (fun col => ?_) _
    unfold checkUnique
    split
    · exact keeps_pure ()
    · refine keeps_bind (still_indexFind col _) fun found => keeps_bind keeps_getObj fun u => ?_
      split
      · exact keeps_throw _
      · exact keeps_pure ()

theorem still_installIntoIndexes (id : RecordId) (r : Record) :
    Keeps (Still fs) (installIntoIndexes (ι := ι) id r) := by
  refine keeps_bind keeps_getObj fun t => keeps_eachColumn (fun col => ?_) _
  unfold installColumn
  split
  · exact keeps_pure ()
  · exact keeps_bind (still_mutableIndex col) fun disk => still_onIndex col disk _

theorem still_removeFromIndexes (r : Record) : Keeps (Still fs) (removeFromIndexes (ι := ι) r) := by
  refine keeps_bind keeps_getObj fun t => keeps_eachColumn (fun col => ?_) _
  unfold removeColumn
  split
  · exact keeps_pure ()
  · exact keeps_bind (still_mutableIndex col) fun disk =>
      keeps_bind (still_onIndex col disk _) fun _ => keeps_pure ()

theorem still_insert (r : Record) : Keeps (Still fs) (insert (ι := ι) r) := by
  refine keeps_bind (still_enforceConstraints r none) fun _ => keeps_bind keeps_getObj fun t => ?_
  refine keeps_bind (still_modifyObj fun u hu => ⟨hu.bound, hu.isOpen⟩) fun _ => ?_
  exact keeps_bind (still_installIntoIndexes _ _) fun _ => keeps_pure _

theorem still_update (id : RecordId) (assignments : List (Nat × Value)) :
    Keeps (Still fs) (update (ι := ι) id assignments) := by
  refine keeps_bind keeps_getObj fun t => ?_
  split
  · exact keeps_throw _
  · refine keeps_bind (still_enforceConstraints _ _) fun _ => ?_
    refine keeps_bind (still_removeFromIndexes _) fun _ => ?_
    refine keeps_bind (still_modifyObj fun u hu => ⟨hu.bound, hu.isOpen⟩) fun _ => ?_
    exact still_installIntoIndexes _ _

theorem still_erase (id : RecordId) : Keeps (Still fs) (erase (ι := ι) id) := by
  refine keeps_bind keeps_getObj fun t => ?_
  split
  · exact keeps_pure ()
  · exact keeps_bind (still_removeFromIndexes _) fun _ =>
      still_modifyObj fun u hu => ⟨hu.bound, hu.isOpen⟩

end Storage.Table

namespace Sql
open Table

variable {fs : FileSystem ι}

theorem still_selectCandidates (cond : Option Expr) :
    Keeps (Still fs) (selectCandidates (ι := ι) cond) := by
  refine keeps_bind keeps_getObj fun t => ?_
  show Keeps _ (ite _ _ _)
  split
  · exact keeps_pure _
  · split
    · exact keeps_pure _
    · split
      · exact keeps_bind (still_indexFind _ _) fun _ => keeps_pure _
      · exact still_indexCollectRange _ _ _ _ _

theorem still_matchedRows (regex : Regex) (cond : Option Expr) :
    Keeps (Still fs) (matchedRows (ι := ι) regex cond) :=
  keeps_bind (still_selectCandidates cond) fun _ => keeps_bind keeps_getObj fun _ =>
    keeps_fromExcept _

theorem still_insertAll (columns : List Str) (rows : List (List Value)) :
    Keeps (Still fs) (insertAll (ι := ι) columns rows) := by
  have hrows : ∀ (positions : List Nat) (rows : List (List Value)),
      Keeps (Still fs) (insertRows (ι := ι) positions rows) := by
    intro positions rows
    induction rows with
    | nil => exact keeps_pure ()
    | cons row rows ih =>
      refine keeps_bind ?_ fun _ => ih
      unfold insertRow
      split
      · exact keeps_throw _
      · exact keeps_bind keeps_getObj fun t => keeps_bind (keeps_fromExcept _) fun r =>
          keeps_bind (still_insert r) fun _ => keeps_pure ()
  exact keeps_bind keeps_getObj fun t => keeps_bind (keeps_fromExcept _) fun positions =>
    keeps_bind (hrows positions rows) fun _ => keeps_pure _

theorem still_updateAll (regex : Regex) (assignments : List (Str × Expr)) (cond : Option Expr) :
    Keeps (Still fs) (updateAll (ι := ι) regex assignments cond) := by
  have hrows : ∀ (assignments : List (Nat × Expr)) (ids : List RecordId),
      Keeps (Still fs) (updateRows (ι := ι) assignments ids) := by
    intro assignments ids
    induction ids with
    | nil => exact keeps_pure ()
    | cons id ids ih =>
      refine keeps_bind (keeps_bind keeps_getObj fun t => ?_) fun _ => ih
      split
      · exact keeps_throw _
      · exact keeps_bind (keeps_fromExcept _) fun assigns => still_update id assigns
  exact keeps_bind keeps_getObj fun t => keeps_bind (keeps_fromExcept _) fun assigns =>
    keeps_bind (still_matchedRows regex cond) fun matched =>
      keeps_bind (hrows assigns matched) fun _ => keeps_pure _

theorem still_deleteAll (regex : Regex) (cond : Option Expr) :
    Keeps (Still fs) (deleteAll (ι := ι) regex cond) := by
  have hrows : ∀ ids : List RecordId, Keeps (Still fs) (deleteRows (ι := ι) ids) := by
    intro ids
    induction ids with
    | nil => exact keeps_pure ()
    | cons id ids ih => exact keeps_bind (still_erase id) fun _ => ih
  exact keeps_bind (still_matchedRows regex cond) fun matched =>
    keeps_bind (hrows matched) fun _ => keeps_pure _

theorem still_selectAll (regex : Regex) (items : List SelectItem) (cond : Option Expr) :
    Keeps (Still fs) (selectAll (ι := ι) regex items cond) := by
  refine keeps_bind keeps_getObj fun t => keeps_bind (keeps_fromExcept _) fun found => ?_
  refine keeps_bind (still_selectCandidates cond) fun cands => keeps_bind keeps_getObj fun u => ?_
  split
  · exact keeps_bind (keeps_fromExcept _) fun _ => keeps_pure _
  · exact keeps_bind (keeps_fromExcept _) fun _ => keeps_pure _

/-! ### Statements -/

theorem resolveDatabase_tidy (ref : TableRef) : Keeps Dbms.Tidy (resolveDatabase (ι := ι) ref) := by
  intro s h
  rcases resolveDatabase_run s ref with ⟨hrun, -⟩ | ⟨e, hrun⟩
  · rwa [hrun]
  · rwa [hrun]

theorem databaseName_tidy (db : Str) : Keeps Dbms.Tidy (databaseName (ι := ι) db) :=
  Dbms.onDatabase_tidy fun _ => fun _ h => h

/-- Work on the rows of a table. -/
theorem onTableOf_tidy {α : Type} (db : Str) (ref : TableRef) {x : TableM ι α}
    (hx : ∀ fs, Keeps (Still fs) x) : Keeps Dbms.Tidy (onTableOf db ref x) := by
  refine Dbms.onDatabase_tidy fun fs => keeps_bind (keeps_bind keeps_getObj fun d => ?_) fun _ => ?_
  · split
    · exact keeps_throw _
    · exact keeps_pure _
  · refine Database.onTable_housed fun s hs => ?_
    have hstill := hx s.fs s ⟨hs, rfl⟩
    exact ⟨hstill.opened, hstill.files ▸ .refl⟩

theorem execOnTable_tidy (ref : TableRef) (verb : String) {x : TableM ι Nat}
    (hx : ∀ fs, Keeps (Still fs) x) : Keeps Dbms.Tidy (execOnTable ref verb x) :=
  keeps_bind (resolveDatabase_tidy ref) fun db => keeps_bind (onTableOf_tidy db ref hx) fun _ =>
    keeps_bind (databaseName_tidy db) fun name => keeps_bind (Dbms.saveDatabase_keeps name) fun _ =>
      keeps_pure _

/-- The name of a database is that of its directory. -/
theorem databaseName_but {dir : Option Str} {s : OnDisk ι (Dbms ι)} (h : Dbms.TidyBut dir s) {db : Str}
    {d : Database ι} (hd : s.obj.databases.lookup db = some d) :
    databaseName db s = .ok db ⟨{ s.obj with databases := s.obj.databases.insert db d }, s.fs⟩ := by
  have hname := (h.placed db d hd).name
  have hget : (do
      let d ← getObj
      return d.name : DatabaseM ι Str) ⟨d, s.fs⟩ = .ok d.name ⟨d, s.fs⟩ := rfl
  rw [hname] at hget
  exact Dbms.onDatabase_ok hd hget

theorem execDropTable_tidy (ref : TableRef) : Keeps Dbms.Tidy (execDropTable (ι := ι) ref) := by
  refine keeps_bind (resolveDatabase_tidy ref) fun db => ?_
  intro s h
  cases hd : s.obj.databases.lookup db with
  | none =>
    have hmissing : Dbms.onDatabase db (Database.dropTable (ι := ι) ref.table) s =
        .error (.outOfRange "unordered_map::at") s := onPart_missing hd
    rw [bind_error hmissing]
    exact h
  | some d =>
    have hhoused := h.housed hd
    rcases Database.dropTable_run (s := ⟨d, s.fs⟩) hhoused.placed ref.table with ⟨e, hrun⟩ | ⟨d', hrun, hd'⟩
    · have herror := Dbms.onDatabase_error hd hrun
      rw [bind_error herror]
      exact (h.but db).put hd hhoused
    · -- until the sweep the directory may have files of the table that is gone
      rw [bind_ok (Dbms.onDatabase_ok hd hrun)]
      have hbut : Dbms.TidyBut (some db)
          (⟨{ s.obj with databases := s.obj.databases.insert db d' }, s.fs⟩ : OnDisk ι (Dbms ι)) :=
        (h.but db).putBut hd hd'
      rw [bind_ok (databaseName_but hbut (AList.lookup_insert _))]
      simp only [AList.insert_insert]
      have hsaved := Dbms.saveDatabase_tidy hbut (AList.lookup_insert _)
      cases hsave : Dbms.saveDatabase db
          (⟨{ s.obj with databases := s.obj.databases.insert db d' }, s.fs⟩ : OnDisk ι (Dbms ι)) with
      | ok _ t =>
        rw [hsave] at hsaved
        rwa [bind_ok hsave]
      | error e t =>
        rw [hsave] at hsaved
        rwa [bind_error hsave]

/-- The names that a statement gives to tables are plain. -/
def Statement.Named : Statement → Prop
  | .createTable s => Plain s.table.table
  | _ => True

/-- Every statement leaves every file with a database that keeps it. -/
theorem exec_tidy {lost : Lost} (regex : Regex) (stmt : Statement) (hnamed : stmt.Named) :
    Keeps Dbms.Tidy (exec (ι := KeyMap lost) regex stmt) := by
  cases stmt with
  | createDatabase name =>
    exact keeps_bind (Dbms.createDatabase_tidy name) fun _ =>
      keeps_bind (Dbms.saveDatabase_keeps name) fun _ => keeps_pure _
  | dropDatabase name => exact keeps_bind (Dbms.dropDatabase_tidy name) fun _ => keeps_pure _
  | use name =>
    refine keeps_bind (keeps_bind ?_ fun _ => fun _ h => ⟨h.placed, h.owned⟩) fun _ => keeps_pure _
    refine keeps_bind keeps_getObj fun s => ?_
    split
    · exact keeps_throw _
    · exact keeps_pure _
  | createTable st =>
    exact keeps_bind (resolveDatabase_tidy st.table) fun db =>
      keeps_bind (keeps_fromExcept _) fun _ =>
      keeps_bind (Dbms.onDatabase_tidy fun _ => Database.createTable_housed hnamed _) fun _ =>
      keeps_bind (databaseName_tidy db) fun name =>
      keeps_bind (Dbms.saveDatabase_keeps name) fun _ => keeps_pure _
  | dropTable ref => exact execDropTable_tidy ref
  | insert st => exact execOnTable_tidy st.table _ fun _ => still_insertAll st.columns st.rows
  | update st =>
    exact execOnTable_tidy st.table _ fun _ => still_updateAll regex st.assignments st.where?
  | delete st => exact execOnTable_tidy st.table _ fun _ => still_deleteAll regex st.where?
  | select st =>
    exact keeps_bind (resolveDatabase_tidy st.table) fun db =>
      onTableOf_tidy db st.table fun _ => still_selectAll regex st.items st.where?

theorem execute_tidy {lost : Lost} (regex : Regex) (stmt : Statement) (hnamed : stmt.Named) :
    Keeps Dbms.Tidy (execute (ι := KeyMap lost) regex stmt) := by
  intro s h
  have hexec := exec_tidy regex stmt hnamed s h
  rw [execute]
  cases hrun : exec regex stmt s with
  | ok res t =>
    rw [hrun] at hexec
    exact hexec
  | error e t =>
    rw [hrun] at hexec
    cases e with
    | _ => exact hexec

end Sql
end CwDb
