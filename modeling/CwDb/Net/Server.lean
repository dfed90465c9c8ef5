import CwDb.Sql.Executor
import CwDb.Foundation.Refinement

/-! Clients of one server.

Every `POST /query` carries one statement, and the server executes it under its
lock: whatever the clients do, the statements run one after the other in some
order. That order, with the client of each statement, is a list of requests.

A statement may leave the database of its table open. The server then takes the one
it has selected, and it has one selection for all its clients: the last successful
USE, whoever sent it. -/
namespace CwDb.Net
open Foundation Storage Sql DiskM

variable {κ ι : Type}

structure Request (κ : Type) where
  client : κ
  statement : Statement

/-- The `/query` handler, from the statement on. -/
def handle [TableIndex ι] (regex : Regex) (r : Request κ) : DbmsM ι ExecutionResult :=
  execute regex r.statement

/-- The table a statement names. -/
def tableRef : Statement → Option TableRef
  | .createTable s => some s.table
  | .dropTable ref => some ref
  | .insert s => some s.table
  | .update s => some s.table
  | .delete s => some s.table
  | .select s => some s.table
  | _ => none

/-- The statement with the database of its table spelled out. -/
def qualify (db : Str) : Statement → Statement
  | .createTable s => .createTable { s with table := { s.table with database := db } }
  | .dropTable ref => .dropTable { ref with database := db }
  | .insert s => .insert { s with table := { s.table with database := db } }
  | .update s => .update { s with table := { s.table with database := db } }
  | .delete s => .delete { s with table := { s.table with database := db } }
  | .select s => .select { s with table := { s.table with database := db } }
  | stmt => stmt

/-- The selection after a request, of an observer who goes by the successful USEs of
some clients, and by the DROP DATABASEs of all. -/
def nextSelection (follows : κ → Bool) (r : Request κ) (res : ExecutionResult)
    (sel : Option Str) : Option Str :=
  if res.ok then
    match r.statement with
    | .use name => if follows r.client then some name else sel
    | .dropDatabase name => if sel = some name then none else sel
    | _ => sel
  else sel

/-- Whether a client has selected a database at all. -/
def hasSelected (client : κ) [DecidableEq κ] : List (Request κ) → List ExecutionResult → Bool
  | r :: rs, res :: results =>
    (decide (r.client = client) && res.ok && match r.statement with
      | .use _ => true
      | _ => false) || hasSelected client rs results
  | _, _ => false

/-! ### What the server keeps -/

/-- The server's own selection is `sel`, a database it has. -/
structure Selecting (sel : Option Str) (s : Dbms ι) : Prop where
  active : s.active = sel.getD []
  present : ∀ db, sel = some db → ∃ d, s.databases.lookup db = some d
  unnamed : s.databases.lookup [] = none

theorem Selecting.ne_nil {sel : Option Str} {s : Dbms ι} (h : Selecting sel s) {db : Str}
    (hdb : sel = some db) : db ≠ [] := by
  rintro rfl
  obtain ⟨d, hd⟩ := h.present _ hdb
  rw [h.unnamed] at hd
  cases hd

/-- A database is there under a name that was there, or is new under a name of its own. -/
theorem Selecting.insert {sel : Option Str} {s : Dbms ι} (h : Selecting sel s) {name : Str}
    (hname : name ≠ []) (d : Database ι) :
    Selecting sel { s with databases := s.databases.insert name d } := by
  refine ⟨h.active, fun db hdb => ?_, ?_⟩
  · by_cases heq : db = name
    · subst heq
      exact ⟨d, AList.lookup_insert _⟩
    · obtain ⟨d', hd'⟩ := h.present db hdb
      exact ⟨d', (AList.lookup_insert_ne heq).trans hd'⟩
  · exact (AList.lookup_insert_ne (Ne.symm hname)).trans h.unnamed

theorem Selecting.drop {sel : Option Str} {s : Dbms ι} (h : Selecting sel s) (name : Str) :
    Selecting (if sel = some name then none else sel)
      { databases := s.databases.erase name
        active := if s.active = name then [] else s.active } := by
  have hunnamed : (s.databases.erase name).lookup [] = none := by
    by_cases heq : ([] : Str) = name
    · rw [← heq]
      exact AList.lookup_erase _ _
    · rw [AList.lookup_erase_ne heq]
      exact h.unnamed
  by_cases hsel : sel = some name
  · rw [if_pos hsel]
    refine ⟨?_, nofun, hunnamed⟩
    show (if s.active = name then [] else s.active) = []
    rw [if_pos (by rw [h.active, hsel]; rfl)]
  · rw [if_neg hsel]
    refine ⟨?_, fun db hdb => ?_, hunnamed⟩
    · show (if s.active = name then [] else s.active) = sel.getD []
      split
      · rename_i hactive
        rw [h.active] at hactive
        cases sel with
        | none => rfl
        | some db => exact absurd (congrArg some hactive) hsel
      · exact h.active
    · obtain ⟨d, hd⟩ := h.present db hdb
      have hne : db ≠ name := fun heq => hsel (heq ▸ hdb)
      exact ⟨d, (AList.lookup_erase_ne hne).trans hd⟩

section Keeping
variable [TableIndex ι] {sel : Option Str}

/-- The selection, as a predicate of the server and its files. -/
abbrev Selects (sel : Option Str) (s : OnDisk ι (Dbms ι)) : Prop := Selecting sel s.obj

theorem keeps_onDatabase {α : Type} (name : Str) (x : DatabaseM ι α) :
    Keeps (Selects sel) (Dbms.onDatabase name x) := by
  intro s h
  cases hd : s.obj.databases.lookup name with
  | none =>
    rw [Dbms.onDatabase, onPart_missing hd]
    exact h
  | some d =>
    have hname : name ≠ [] := by
      rintro rfl
      rw [h.unnamed] at hd
      cases hd
    rw [Dbms.onDatabase, stateOf_onPart hd]
    exact h.insert hname _

theorem keeps_requireDatabase (name : Str) :
    Keeps (Selects sel) (Dbms.requireDatabase name : DbmsM ι Str) := by
  refine keeps_bind keeps_getObj fun s => ?_
  split
  · exact keeps_throw _
  · exact keeps_pure _

theorem keeps_resolveDatabase (ref : TableRef) :
    Keeps (Selects sel) (resolveDatabase ref : DbmsM ι Str) := by
  unfold resolveDatabase
  split
  · exact keeps_requireDatabase _
  · refine keeps_bind keeps_getObj fun s => ?_
    split
    · exact keeps_throw _
    · exact keeps_requireDatabase _

theorem keeps_saveDatabase (name : Str) :
    Keeps (Selects sel) (Dbms.saveDatabase name : DbmsM ι Unit) := by
  refine keeps_bind keeps_getObj fun s => ?_
  split
  · exact keeps_pure _
  · exact keeps_onDatabase _ _

theorem keeps_execOnTable (ref : TableRef) (verb : String) (x : TableM ι Nat) :
    Keeps (Selects sel) (execOnTable ref verb x) :=
  keeps_bind (keeps_resolveDatabase _) fun _ => keeps_bind (keeps_onDatabase _ _) fun _ =>
    keeps_bind (keeps_onDatabase _ _) fun _ => keeps_bind (keeps_saveDatabase _) fun _ =>
      keeps_pure _

theorem keeps_createDatabase {name : Str} (hname : name ≠ []) :
    Keeps (Selects sel) (Dbms.createDatabase name : DbmsM ι Unit) := by
  refine keeps_bind keeps_getObj fun s => ?_
  split
  · exact keeps_throw _
  · refine keeps_bind (keeps_modify fun s h => h.insert hname _) fun _ => ?_
    exact keeps_bind (keeps_modify fun s h => h) fun _ => keeps_onDatabase _ _

/-- No statement but USE and DROP DATABASE touches the selection. -/
theorem keeps_exec (regex : Regex) {stmt : Statement} (huse : ∀ name, stmt ≠ .use name)
    (hdrop : ∀ name, stmt ≠ .dropDatabase name) (hcreate : stmt ≠ .createDatabase []) :
    Keeps (Selects sel) (exec regex stmt : DbmsM ι ExecutionResult) := by
  cases stmt with
  | createDatabase name =>
    have hname : name ≠ [] := fun h => hcreate (by rw [h])
    exact keeps_bind (keeps_createDatabase hname) fun _ =>
      keeps_bind (keeps_saveDatabase _) fun _ => keeps_pure _
  | dropDatabase name => exact absurd rfl (hdrop name)
  | use name => exact absurd rfl (huse name)
  | createTable s =>
    exact keeps_bind (keeps_resolveDatabase _) fun _ => keeps_bind (keeps_fromExcept _) fun _ =>
      keeps_bind (keeps_onDatabase _ _) fun _ => keeps_bind (keeps_onDatabase _ _) fun _ =>
        keeps_bind (keeps_saveDatabase _) fun _ => keeps_pure _
  | dropTable ref =>
    exact keeps_bind (keeps_resolveDatabase _) fun _ => keeps_bind (keeps_onDatabase _ _) fun _ =>
      keeps_bind (keeps_onDatabase _ _) fun _ => keeps_bind (keeps_saveDatabase _) fun _ =>
        keeps_pure _
  | insert s => exact keeps_execOnTable _ _ _
  | update s => exact keeps_execOnTable _ _ _
  | delete s => exact keeps_execOnTable _ _ _
  | select s => exact keeps_bind (keeps_resolveDatabase _) fun _ => keeps_onDatabase _ _

/-- A request that was answered: the statement returned, or threw and was answered
with the error. -/
theorem execute_eq_ok {regex : Regex} {stmt : Statement} {res : ExecutionResult}
    {s t : OnDisk ι (Dbms ι)} (h : execute regex stmt s = .ok res t) :
    exec regex stmt s = .ok res t ∨
      ∃ e, exec regex stmt s = .error e t ∧ res = { ok := false, error := e.what } := by
  unfold execute at h
  cases hx : exec regex stmt s with
  | ok r u =>
    rw [hx] at h
    exact .inl h
  | error e u =>
    rw [hx] at h
    cases e with
    | diverges => cases h
    | _ =>
      cases h
      exact .inr ⟨_, rfl, rfl⟩

theorem requireDatabase_missing {name : Str} {s : OnDisk ι (Dbms ι)}
    (h : s.obj.databases.lookup name = none) : Dbms.requireDatabase name s =
      .error (.runtimeError ("Unknown database '" ++ name.text ++ "'")) s := by
  rw [Dbms.requireDatabase, getObj_bind_apply, h]
  rfl

theorem requireDatabase_found {name : Str} {s : OnDisk ι (Dbms ι)} {d : Database ι}
    (h : s.obj.databases.lookup name = some d) : Dbms.requireDatabase name s = .ok name s := by
  rw [Dbms.requireDatabase, getObj_bind_apply, h]
  rfl

/-- USE throws and changes nothing, or selects a database that is there. -/
theorem execUse_cases (name : Str) (s : OnDisk ι (Dbms ι)) :
    (∃ e, execUse name s = .error e s) ∨
    ∃ res d, s.obj.databases.lookup name = some d ∧ res.ok = true ∧
      execUse name s = .ok res { s with obj := { s.obj with active := name } } := by
  cases hd : s.obj.databases.lookup name with
  | none => exact .inl ⟨_, bind_error (bind_error (requireDatabase_missing hd))⟩
  | some d =>
    refine .inr ⟨{ output := .text ("Active database: " ++ name.text) }, d, rfl, rfl, ?_⟩
    refine (bind_ok (a := ()) (?_ : Dbms.useDatabase name s = _)).trans rfl
    exact bind_ok (requireDatabase_found hd)

/-- DROP DATABASE throws and changes nothing, or takes away the database, and the
selection if it was that one. -/
theorem execDropDatabase_cases (name : Str) (s : OnDisk ι (Dbms ι)) :
    (∃ e, execDropDatabase name s = .error e s) ∨
    ∃ res t, res.ok = true ∧ execDropDatabase name s = .ok res t ∧
      t.obj = { databases := s.obj.databases.erase name
                active := if s.obj.active = name then [] else s.obj.active } := by
  cases hd : s.obj.databases.lookup name with
  | none =>
    refine .inl ⟨.runtimeError ("Unknown database '" ++ name.text ++ "'"), bind_error ?_⟩
    rw [Dbms.dropDatabase, getObj_bind_apply, hd]
    rfl
  | some d =>
    refine .inr ⟨{ output := .text ("Database dropped: " ++ name.text) }, ⟨_, s.fs.erase name⟩, rfl,
      (bind_ok (a := ()) ?_).trans rfl, rfl⟩
    rw [Dbms.dropDatabase, getObj_bind_apply, hd]
    rfl

/-- One request moves the selection as an observer of all clients sees it. -/
theorem handle_selecting {regex : Regex} {r : Request κ} {res : ExecutionResult}
    {s t : OnDisk ι (Dbms ι)} (hnamed : r.statement ≠ .createDatabase [])
    (hs : Selecting sel s.obj) (h : handle regex r s = .ok res t) :
    Selecting (nextSelection (fun _ => true) r res sel) t.obj := by
  obtain ⟨client, stmt⟩ := r
  have hcases := execute_eq_ok h
  by_cases huse : ∃ name, stmt = .use name
  · obtain ⟨name, rfl⟩ := huse
    rcases execUse_cases name s with ⟨e, hrun⟩ | ⟨res', d, hd, hok, hrun⟩
    · rcases hcases with hx | ⟨e', hx, rfl⟩
      · cases hrun.symm.trans hx
      · cases hrun.symm.trans hx
        exact hs
    · rcases hcases with hx | ⟨e', hx, rfl⟩
      · cases hrun.symm.trans hx
        rw [nextSelection, if_pos hok]
        refine ⟨rfl, ?_, hs.unnamed⟩
        rintro db ⟨rfl⟩
        exact ⟨d, hd⟩
      · cases hrun.symm.trans hx
  · by_cases hdrop : ∃ name, stmt = .dropDatabase name
    · obtain ⟨name, rfl⟩ := hdrop
      rcases execDropDatabase_cases name s with ⟨e, hrun⟩ | ⟨res', u, hok, hrun, hu⟩
      · rcases hcases with hx | ⟨e', hx, rfl⟩
        · cases hrun.symm.trans hx
        · cases hrun.symm.trans hx
          exact hs
      · rcases hcases with hx | ⟨e', hx, rfl⟩
        · cases hrun.symm.trans hx
          rw [nextSelection, if_pos hok, hu]
          exact hs.drop name
        · cases hrun.symm.trans hx
    · have hkeep : Selects sel (stateOf (exec regex stmt s)) :=
        keeps_exec regex (fun name h => huse ⟨name, h⟩) (fun name h => hdrop ⟨name, h⟩) hnamed s hs
      have hsame : nextSelection (fun _ => true) ⟨client, stmt⟩ res sel = sel := by
        unfold nextSelection
        split
        · cases stmt with
          | use name => exact absurd ⟨name, rfl⟩ huse
          | dropDatabase name => exact absurd ⟨name, rfl⟩ hdrop
          | _ => rfl
        · rfl
      rw [hsame]
      rcases hcases with hx | ⟨e', hx, -⟩
      · rw [show exec regex stmt s = _ from hx] at hkeep
        exact hkeep
      · rw [show exec regex stmt s = _ from hx] at hkeep
        exact hkeep

end Keeping

/-! ### Unqualified names -/

section Unqualified
variable [TableIndex ι] {regex : Regex} {stmt : Statement} {ref : TableRef}
  {s : OnDisk ι (Dbms ι)}

theorem bind_congr_run {α β : Type} {x y : DbmsM ι α} (h : x s = y s) (f : α → DbmsM ι β) :
    (x >>= f) s = (y >>= f) s := by
  show EStateM.bind x f s = EStateM.bind y f s
  simp only [EStateM.bind, h]

/-- Where both references resolve to the same, the statement does the same. -/
theorem exec_qualify (href : tableRef stmt = some ref) {db : Str}
    (h : resolveDatabase ref s = resolveDatabase { ref with database := db } s) :
    exec regex stmt s = exec regex (qualify db stmt) s := by
  cases stmt with
  | createDatabase name | dropDatabase name | use name => cases href
  | createTable st | insert st | update st | delete st | select st =>
    cases href
    exact bind_congr_run h _
  | dropTable r =>
    cases href
    exact bind_congr_run h _

/-- A statement whose reference does not resolve is answered with the error. -/
theorem execute_unresolved (href : tableRef stmt = some ref) {e : Exn} (he : e ≠ .diverges)
    (h : resolveDatabase ref s = .error e s) :
    execute regex stmt s = .ok { ok := false, error := e.what } s := by
  have hexec : exec regex stmt s = .error e s := by
    cases stmt with
    | createDatabase name | dropDatabase name | use name => cases href
    | createTable st | insert st | update st | delete st | select st =>
      cases href
      exact bind_error h
    | dropTable r =>
      cases href
      exact bind_error h
  unfold execute
  rw [hexec]
  cases e with
  | diverges => exact absurd rfl he
  | _ => rfl

/-- After any run of the clients' requests, a statement with an unqualified table
name does what it does with the name of the last selected database in front of it;
without one it is answered with an error and changes nothing. -/
theorem handle_unqualified (regex : Regex) {start s : OnDisk ι (Dbms ι)}
    (hactive : start.obj.active = []) (hunnamed : start.obj.databases.lookup [] = none)
    (requests : List (Request κ)) (hnamed : ∀ r ∈ requests, r.statement ≠ .createDatabase [])
    (results : List ExecutionResult) (hrun : runCalls (handle regex) requests start = .ok results s)
    (r : Request κ) (href : tableRef r.statement = some ref) (hun : ref.database = []) :
    match observe (nextSelection fun _ => true) requests results none with
    | some db => (∃ d, s.obj.databases.lookup db = some d) ∧
        handle regex r s = handle regex { r with statement := qualify db r.statement } s
    | none => handle regex r s =
        .ok { ok := false, error := "No database selected (use USE first)" } s := by
  have hs := runCalls_observe (I := fun sel s => Selecting sel (OnDisk.obj s))
    (fun r hr sel s res t h hok => handle_selecting (hnamed r hr) h hok)
    (a := none) ⟨hactive, nofun, hunnamed⟩ hrun
  have hresolve : resolveDatabase ref s = Dbms.activeOrThrow s := by
    rw [resolveDatabase, if_neg (by simpa using hun)]
  generalize observe (nextSelection fun _ => true) requests results none = sel at hs ⊢
  cases sel with
  | some db =>
    refine ⟨hs.present db rfl, ?_⟩
    have hdb := hs.ne_nil rfl
    have hactive' : s.obj.active = db := hs.active
    have hsame : resolveDatabase ref s = resolveDatabase { ref with database := db } s := by
      rw [hresolve, resolveDatabase, if_pos hdb, Dbms.activeOrThrow, getObj_bind_apply,
        if_neg (by rw [hactive']; exact hdb), hactive']
    show execute regex r.statement s = execute regex (qualify db r.statement) s
    rw [execute, execute, exec_qualify href hsame]
  | none =>
    refine execute_unresolved href (e := .runtimeError "No database selected (use USE first)")
      nofun ?_
    have hnone : s.obj.active = [] := hs.active
    rw [hresolve, Dbms.activeOrThrow, getObj_bind_apply, if_pos hnone]
    rfl

end Unqualified

/-! ### Two clients -/

section TwoClients

def nameA : Str := Str.ofString "a"
def nameB : Str := Str.ofString "b"

def matchesNothing : Regex := fun _ _ => .ok false

/-- A server with no database. -/
def emptyServer : OnDisk (KeyMap .nowhere) (Dbms (KeyMap .nowhere)) := ⟨{}, ∅⟩

/-- Both clients create a database and select it, `false` first. -/
def bothSelect : List (Request Bool) :=
  [⟨false, .createDatabase nameA⟩, ⟨true, .createDatabase nameB⟩, ⟨false, .use nameA⟩,
    ⟨true, .use nameB⟩]

/-- CREATE TABLE with an unqualified name. -/
def createUnqualified : Statement :=
  .createTable { table := { table := Str.ofString "t" }, columns := [] }

theorem handle_unqualified_bothSelect : ∃ results s,
    runCalls (handle matchesNothing) bothSelect emptyServer = .ok results s ∧
      handle matchesNothing (⟨false, createUnqualified⟩ : Request Bool) s =
        handle matchesNothing ⟨false, qualify nameB createUnqualified⟩ s := by
  have hlast : (match runCalls (handle matchesNothing) bothSelect emptyServer with
      | .ok results _ => decide (observe (nextSelection fun _ => true) bothSelect results none =
          some nameB)
      | .error _ _ => false) = true := by decide +kernel
  cases h : runCalls (handle matchesNothing) bothSelect emptyServer with
  | error e s =>
    rw [h] at hlast
    cases hlast
  | ok results s =>
    rw [h] at hlast
    have hrun := handle_unqualified matchesNothing rfl rfl bothSelect
      (by simp [bothSelect, nameA, nameB]; decide) results h ⟨false, createUnqualified⟩ rfl rfl
    rw [of_decide_eq_true hlast] at hrun
    exact ⟨results, s, rfl, hrun.2⟩

/-- The client that selected `a` creates its table in `b`. -/
theorem not_handle_own_selection : ¬ ∀ (start s : OnDisk (KeyMap .nowhere) (Dbms (KeyMap .nowhere)))
    (requests : List (Request Bool)) (results : List ExecutionResult) (r : Request Bool)
    (ref : TableRef), start.obj.active = [] → start.obj.databases.lookup [] = none →
    (∀ r ∈ requests, r.statement ≠ .createDatabase []) →
    runCalls (handle matchesNothing) requests start = .ok results s →
    tableRef r.statement = some ref → ref.database = [] →
      (∀ db, observe (nextSelection fun c => decide (c = r.client)) requests results none = some db →
        handle matchesNothing r s = handle matchesNothing { r with statement := qualify db r.statement } s) ∧
      (hasSelected r.client requests results = false →
        ∃ res t, handle matchesNothing r s = .ok res t ∧ res.ok = false) := by
  intro hall
  have hdiffer : (match runCalls (handle matchesNothing) bothSelect emptyServer with
      | .ok results s =>
        decide (observe (nextSelection fun c => decide (c = false)) bothSelect results none =
          some nameA) &&
        match handle matchesNothing (⟨false, createUnqualified⟩ : Request Bool) s,
          handle matchesNothing (⟨false, qualify nameA createUnqualified⟩ : Request Bool) s with
        | .ok res _, .ok res' _ => decide (res.output ≠ res'.output)
        | _, _ => false
      | .error _ _ => false) = true := by decide +kernel
  cases h : runCalls (handle matchesNothing) bothSelect emptyServer with
  | error e s =>
    rw [h] at hdiffer
    cases hdiffer
  | ok results s =>
    rw [h, Bool.and_eq_true, decide_eq_true_eq] at hdiffer
    obtain ⟨hown, houtputs⟩ := hdiffer
    have hsame := (hall emptyServer s bothSelect results ⟨false, createUnqualified⟩ _ rfl rfl
      (by simp [bothSelect, nameA, nameB]; decide) h rfl rfl).1 nameA hown
    rw [hsame] at houtputs
    cases hx : handle matchesNothing (⟨false, qualify nameA createUnqualified⟩ : Request Bool) s with
    | error e t =>
      rw [hx] at houtputs
      cases houtputs
    | ok res t =>
      rw [hx] at houtputs
      exact of_decide_eq_true houtputs rfl

end TwoClients
end CwDb.Net
