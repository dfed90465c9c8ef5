import CwDb.Sql.TidyServer
import CwDb.Core.DbmsMirror

/-! Statements over an index that tracks the ideal one, beside statements over the ideal one.

Evaluation, hints and projections read the rows and the schema of a table, which mirrors
share. A statement asks its index for the keys of its hint; where these are keys the index
tracks, and an INSERT has room for its rows, it has the same outcome on twins and leaves
twins (`exec_twins`). -/
namespace CwDb.Sql
open Foundation Storage DiskM

variable {ι : Type} [TableIndex ι] {lost : Lost} {T : Tracking ι lost}

/-! ### What is read of a table -/

section Reading
variable {t : Table ι} {u : Table (KeyMap lost)} (regex : Regex) (row : Record)

theorem requireColumn_mirror (h : t.Mirrors T u) (name : Str) :
    t.requireColumn name = u.requireColumn name := by
  rw [Table.requireColumn, Table.requireColumn, h.schema, h.name]

theorem evalAtom_mirror (h : t.Mirrors T u) (e : Expr) : evalAtom t row e = evalAtom u row e := by
  cases e with
  | columnRef column => rw [evalAtom, evalAtom, requireColumn_mirror h]
  | _ => rfl

theorem evalWhere_mirror (h : t.Mirrors T u) (w : Expr) :
    evalWhere regex t row w = evalWhere regex u row w := by
  induction w with
  | compare op lhs rhs =>
    rw [evalWhere, evalWhere, evalAtom_mirror row h, evalAtom_mirror row h]
  | between value lo hi =>
    rw [evalWhere, evalWhere, evalAtom_mirror row h, evalAtom_mirror row h, evalAtom_mirror row h]
  | like value pattern =>
    rw [evalWhere, evalWhere, evalAtom_mirror row h, evalAtom_mirror row h]
  | logical op lhs rhs ihl ihr => rw [evalWhere, evalWhere, ihl, ihr]
  | _ => rfl

theorem selected_mirror (h : t.Mirrors T u) (cond : Option Expr) :
    selected regex t row cond = selected regex u row cond := by
  cases cond with
  | none => rfl
  | some w => rw [selected, selected, evalWhere_mirror regex row h]

theorem hintColumns_mirror (h : t.Mirrors T u) (clauses : List Expr) (cols : List ColumnDef) :
    hintColumns t clauses cols = hintColumns u clauses cols := by
  induction cols with
  | nil => rfl
  | cons col cols ih =>
    rw [hintColumns, hintColumns, h.schema, ih]
    cases u.schema.indexOf col.name with
    | none => rfl
    | some i => simp only [h.columnIsIndexed]

theorem deriveIndexHint_mirror (h : t.Mirrors T u) (cond : Option Expr) :
    deriveIndexHint cond t = deriveIndexHint cond u := by
  cases cond with
  | none => rfl
  | some w => rw [deriveIndexHint, deriveIndexHint, h.schema, hintColumns_mirror h]

theorem matchLoop_mirror (h : t.Mirrors T u) (cond : Option Expr) (ids : List RecordId) :
    matchLoop regex t cond ids = matchLoop regex u cond ids := by
  induction ids with
  | nil => rfl
  | cons id ids ih =>
    rw [matchLoop, matchLoop, h.records, ih]
    cases u.records id with
    | none => rfl
    | some r => simp only [selected_mirror regex r h]

theorem assignSlots_mirror (h : t.Mirrors T u) (assigned : List (Nat × Value))
    (slots : List (Option Value)) : t.assignSlots assigned slots = u.assignSlots assigned slots := by
  induction assigned generalizing slots with
  | nil => rfl
  | cons a rest ih => rw [Table.assignSlots, Table.assignSlots, h.columnName, ih]

theorem materialize_mirror (h : t.Mirrors T u) (positions : List Nat) (values : List Value) :
    t.materialize positions values = u.materialize positions values := by
  rw [Table.materialize, Table.materialize, h.schema, assignSlots_mirror h]

theorem columnPositions_mirror (h : t.Mirrors T u) (names : List Str) :
    columnPositions t names = columnPositions u names := by
  induction names with
  | nil => rfl
  | cons name names ih => rw [columnPositions, columnPositions, requireColumn_mirror h, ih]

theorem insertPositions_mirror (h : t.Mirrors T u) (columns : List Str) :
    insertPositions t columns = insertPositions u columns := by
  rw [insertPositions, insertPositions, h.schema, columnPositions_mirror h]

theorem assignmentColumns_mirror (h : t.Mirrors T u) (assignments : List (Str × Expr)) :
    assignmentColumns t assignments = assignmentColumns u assignments := by
  induction assignments with
  | nil => rfl
  | cons a rest ih => rw [assignmentColumns, assignmentColumns, requireColumn_mirror h, ih]

theorem evalAssignments_mirror (h : t.Mirrors T u) (assignments : List (Nat × Expr)) :
    evalAssignments t row assignments = evalAssignments u row assignments := by
  induction assignments with
  | nil => rfl
  | cons a rest ih => rw [evalAssignments, evalAssignments, evalAtom_mirror row h, ih]

theorem resolveItem_mirror (h : t.Mirrors T u) (it : SelectItem) :
    resolveItem t it = resolveItem u it := by
  rw [resolveItem, resolveItem, requireColumn_mirror h]

theorem resolveItems_mirror (h : t.Mirrors T u) (its : List SelectItem) :
    resolveItems t its = resolveItems u its := by
  induction its with
  | nil => rfl
  | cons it its ih => rw [resolveItems, resolveItems, resolveItem_mirror h, ih]

theorem projection_mirror (h : t.Mirrors T u) (items : List SelectItem) :
    projection t items = projection u items := by
  rw [projection, projection, h.schema, resolveItems_mirror h]

theorem accumulate_mirror (h : t.Mirrors T u) (items : List (ResolvedItem × Accumulator)) :
    accumulate t row items = accumulate u row items := by
  induction items with
  | nil => rfl
  | cons item items ih => rw [accumulate, accumulate, accumulateItem, accumulateItem, h.columnName, ih]

theorem aggregateLoop_mirror (h : t.Mirrors T u) (cond : Option Expr) (ids : List RecordId)
    (items : List (ResolvedItem × Accumulator)) :
    aggregateLoop regex t cond ids items = aggregateLoop regex u cond ids items := by
  induction ids generalizing items with
  | nil => rfl
  | cons id ids ih =>
    rw [aggregateLoop, aggregateLoop, h.records]
    cases u.records id with
    | none => rfl
    | some r => simp only [selected_mirror regex r h, accumulate_mirror r h, ih]

theorem selectLoop_mirror {β : Type} (h : t.Mirrors T u) (cond : Option Expr)
    {f g : Record → Except Exn β} (hfg : ∀ r, f r = g r) (ids : List RecordId) :
    selectLoop regex t cond f ids = selectLoop regex u cond g ids := by
  induction ids with
  | nil => rfl
  | cons id ids ih =>
    rw [selectLoop, selectLoop, h.records, ih]
    cases u.records id with
    | none => rfl
    | some r => simp only [selected_mirror regex r h, hfg]

end Reading

/-! ### Rows -/

/-- The keys a hint asks its index for. -/
def IndexHint.Asks (Key : Value → Prop) (hint : IndexHint) : Prop :=
  hint.has = true → if hint.eq then Key hint.eqValue
    else (hint.hasLo = true → Key hint.lo) ∧ (hint.hasHi = true → Key hint.hi)

section Rows
variable {s : OnDisk ι (Table ι)} {v : OnDisk (KeyMap lost) (Table (KeyMap lost))}
  (regex : Regex) {cond : Option Expr}

theorem selectCandidates_agree (h : Table.MirrorsOn T s v)
    (hasks : (deriveIndexHint cond v.obj).Asks T.Key) :
    Agree (Table.MirrorsOn T) (selectCandidates cond s) (selectCandidates cond v) := by
  rw [selectCandidates, selectCandidates, getObj_bind_apply, getObj_bind_apply,
    deriveIndexHint_mirror h.obj]
  revert hasks
  generalize deriveIndexHint cond v.obj = hint
  intro hasks
  rw [h.obj.order, h.obj.columnIsIndexed]
  by_cases hhas : (!hint.has) = true
  · rw [if_pos hhas, if_pos hhas]
    exact .ok _ h
  · rw [if_neg hhas, if_neg hhas]
    by_cases hidx : (!v.obj.columnIsIndexed hint.columnIdx) = true
    · rw [if_pos hidx, if_pos hidx]
      exact .ok _ h
    · rw [if_neg hidx, if_neg hidx]
      have hkeys := hasks (by simpa using hhas)
      by_cases heq : hint.eq = true
      · rw [if_pos heq] at hkeys
        rw [if_pos heq, if_pos heq]
        exact (Table.indexFind_agree h hint.columnIdx hkeys).bind fun _ _ _ _ h => .ok _ h
      · rw [if_neg heq] at hkeys
        rw [if_neg heq, if_neg heq]
        refine Table.indexCollectRange_agree h hint.columnIdx _ _ ?_ ?_
        · intro b hb
          by_cases hlo : hint.hasLo = true
          · rw [if_pos hlo] at hb
            cases hb
            exact hkeys.1 hlo
          · rw [if_neg hlo] at hb
            cases hb
        · intro b hb
          by_cases hhi : hint.hasHi = true
          · rw [if_pos hhi] at hb
            cases hb
            exact hkeys.2 hhi
          · rw [if_neg hhi] at hb
            cases hb

theorem matchedRows_agree (h : Table.MirrorsOn T s v)
    (hasks : (deriveIndexHint cond v.obj).Asks T.Key) :
    Agree (Table.MirrorsOn T) (matchedRows regex cond s) (matchedRows regex cond v) := by
  refine (selectCandidates_agree h hasks).bind fun cands s v _ h => ?_
  rw [getObj_bind_apply, getObj_bind_apply, matchLoop_mirror regex h.obj]
  exact agree_fromExcept _ h

/-! Searching changes no ideal table. -/

theorem selectCandidates_twins (h : Table.TwinsOn T s v)
    (hasks : (deriveIndexHint cond v.obj).Asks T.Key) :
    Agree (Table.TwinsOn T) (selectCandidates cond s) (selectCandidates cond v) := by
  refine Table.TwinsOn.of_agree (selectCandidates_agree h.mirrors hasks) ?_
  obtain ⟨cands, hrun, -⟩ := selectCandidates_complete noMatch h.obj.kept.toSound cond
  rw [hrun]
  exact h.obj.kept

theorem matchedRows_twins (h : Table.TwinsOn T s v)
    (hasks : (deriveIndexHint cond v.obj).Asks T.Key) :
    Agree (Table.TwinsOn T) (matchedRows regex cond s) (matchedRows regex cond v) := by
  refine Table.TwinsOn.of_agree (matchedRows_agree regex h.mirrors hasks) ?_
  cases hrun : matchedRows regex cond v with
  | ok ids v' =>
    rw [stateOf_ok, (matchedRows_ok h.obj.kept.toSound hrun).1]
    exact h.obj.kept
  | error e v' =>
    rw [stateOf_error, matchedRows_error h.obj.kept.toSound hrun]
    exact h.obj.kept

/-! ### Changes of rows -/

theorem insertRow_twins (h : Table.TwinsOn T s v) (hroom : v.obj.HasRoom T.room 1)
    (hid : v.obj.nextId < 2 ^ 64) (positions : List Nat) (row : List Value) :
    Agree (Table.TwinsOn T) (insertRow positions row s) (insertRow positions row v) := by
  unfold insertRow
  by_cases hlength : row.length ≠ positions.length
  · rw [if_pos hlength, if_pos hlength]
    exact .error _ h
  · rw [if_neg hlength, if_neg hlength, getObj_bind_apply, getObj_bind_apply,
      materialize_mirror h.obj.mirrors]
    cases hrecord : v.obj.materialize positions row with
    | error e => exact .error e h
    | ok record =>
      have hinsert := Table.TwinsOn.of_agree (Table.insert_agree h.mirrors h.obj.kept hroom hid record)
        (Table.insert_kept h.obj.kept hroom hid record)
      exact hinsert.bind fun _ _ _ _ h => .ok () h

/-- A row that was inserted took a place and an id. -/
theorem insertRow_counts (hv : v.obj.Kept T) {positions : List Nat} {row : List Value}
    {v' : OnDisk (KeyMap lost) (Table (KeyMap lost))}
    (hrun : insertRow positions row v = .ok () v') :
    v'.obj.schema = v.obj.schema ∧ v'.obj.order.length = v.obj.order.length + 1 ∧
      v'.obj.nextId = v.obj.nextId + 1 := by
  unfold insertRow at hrun
  split at hrun
  · cases hrun
  · rw [getObj_bind_apply] at hrun
    obtain ⟨record, v₁, hrecord, hrun⟩ := bind_eq_ok.mp hrun
    obtain ⟨id, v₂, hinsert, hpure⟩ := bind_eq_ok.mp hrun
    have hsame : v₁ = v := by
      cases hm : v.obj.materialize positions row with
      | error e => rw [hm] at hrecord; cases hrecord
      | ok r => rw [hm] at hrecord; cases hrecord; rfl
    subst hsame
    cases hpure
    obtain ⟨-, -, rfl⟩ := Table.insert_step hv.toAgrees hinsert
    exact ⟨rfl, List.length_append .., rfl⟩

theorem insertRows_twins (positions : List Nat) (rows : List (List Value)) : ∀ s v,
    Table.TwinsOn T s v → v.obj.HasRoom T.room rows.length →
      v.obj.nextId + rows.length ≤ 2 ^ 64 →
        Agree (Table.TwinsOn T) (insertRows positions rows s) (insertRows positions rows v) := by
  induction rows with
  | nil =>
    intro s v h _ _
    exact .ok () h
  | cons row rows ih =>
    intro s v h hroom hids
    rw [List.length_cons] at hroom hids
    have hone : v.obj.HasRoom T.room 1 := fun hindexed =>
      (Nat.add_le_add_left (Nat.succ_pos _) _).trans (hroom hindexed)
    have hid : v.obj.nextId < 2 ^ 64 := (Nat.lt_add_of_pos_right (Nat.succ_pos _)).trans_le hids
    refine (insertRow_twins h hone hid positions row).bind fun _ s' v' hrun h' => ?_
    obtain ⟨hschema, horder, hnext⟩ := insertRow_counts h.obj.kept hrun
    refine ih s' v' h' (fun hindexed => ?_) ?_
    · rw [hschema] at hindexed
      have hfits := hroom hindexed
      omega
    · rw [hnext, Nat.add_right_comm]
      exact hids

theorem insertAll_twins (h : Table.TwinsOn T s v) (columns : List Str) {rows : List (List Value)}
    (hroom : v.obj.HasRoom T.room rows.length) (hids : v.obj.nextId + rows.length ≤ 2 ^ 64) :
    Agree (Table.TwinsOn T) (insertAll columns rows s) (insertAll columns rows v) := by
  rw [insertAll, insertAll, getObj_bind_apply, getObj_bind_apply,
    insertPositions_mirror h.obj.mirrors]
  cases insertPositions v.obj columns with
  | error e => exact .error e h
  | ok positions =>
    exact (insertRows_twins positions rows s v h hroom hids).bind fun _ _ _ _ h => .ok _ h

theorem updateRow_twins (h : Table.TwinsOn T s v) (assignments : List (Nat × Expr)) (id : RecordId) :
    Agree (Table.TwinsOn T) (updateRow assignments id s) (updateRow assignments id v) := by
  rw [updateRow, updateRow, getObj_bind_apply, getObj_bind_apply, h.obj.mirrors.records]
  cases v.obj.records id with
  | none => exact .error _ h
  | some r =>
    simp only [evalAssignments_mirror r h.obj.mirrors]
    cases evalAssignments v.obj r assignments with
    | error e => exact .error e h
    | ok assigns =>
      exact Table.TwinsOn.of_agree (Table.update_agree h.mirrors h.obj.kept id assigns)
        (Table.update_kept h.obj.kept id assigns)

theorem updateRows_twins (assignments : List (Nat × Expr)) (ids : List RecordId) : ∀ s v,
    Table.TwinsOn T s v →
      Agree (Table.TwinsOn T) (updateRows assignments ids s) (updateRows assignments ids v) := by
  induction ids with
  | nil =>
    intro s v h
    exact .ok () h
  | cons id ids ih =>
    intro s v h
    exact (updateRow_twins h assignments id).bind fun _ s v _ h => ih s v h

theorem updateAll_twins (h : Table.TwinsOn T s v) (assignments : List (Str × Expr))
    (hasks : (deriveIndexHint cond v.obj).Asks T.Key) :
    Agree (Table.TwinsOn T) (updateAll regex assignments cond s)
      (updateAll regex assignments cond v) := by
  rw [updateAll, updateAll, getObj_bind_apply, getObj_bind_apply,
    assignmentColumns_mirror h.obj.mirrors]
  cases assignmentColumns v.obj assignments with
  | error e => exact .error e h
  | ok assignments =>
    refine (matchedRows_twins regex h hasks).bind fun matched s v _ h => ?_
    exact (updateRows_twins assignments matched s v h).bind fun _ _ _ _ h => .ok _ h

theorem deleteRows_twins (ids : List RecordId) : ∀ s v, Table.TwinsOn T s v →
    Agree (Table.TwinsOn T) (deleteRows ids s) (deleteRows ids v) := by
  induction ids with
  | nil =>
    intro s v h
    exact .ok () h
  | cons id ids ih =>
    intro s v h
    have herase := Table.TwinsOn.of_agree (Table.erase_agree h.mirrors h.obj.kept id)
      (Table.erase_kept h.obj.kept id)
    exact herase.bind fun _ s v _ h => ih s v h

theorem deleteAll_twins (h : Table.TwinsOn T s v)
    (hasks : (deriveIndexHint cond v.obj).Asks T.Key) :
    Agree (Table.TwinsOn T) (deleteAll regex cond s) (deleteAll regex cond v) := by
  refine (matchedRows_twins regex h hasks).bind fun matched s v _ h => ?_
  exact (deleteRows_twins matched s v h).bind fun _ _ _ _ h => .ok _ h

theorem selectAll_twins (h : Table.TwinsOn T s v) (items : List SelectItem)
    (hasks : (deriveIndexHint cond v.obj).Asks T.Key) :
    Agree (Table.TwinsOn T) (selectAll regex items cond s) (selectAll regex items cond v) := by
  rw [selectAll, selectAll, getObj_bind_apply, getObj_bind_apply, projection_mirror h.obj.mirrors]
  cases projection v.obj items with
  | error e => exact .error e h
  | ok found =>
    obtain ⟨items, anyAgg⟩ := found
    refine (selectCandidates_twins h hasks).bind fun cands s v _ h => ?_
    have hplain := selectLoop_mirror (f := fun r => .ok (items.map fun it =>
        (it.label, r.value it.columnIdx))) regex h.obj.mirrors cond (fun _ => rfl) cands
    have hagg := aggregateLoop_mirror regex h.obj.mirrors cond cands
    rw [getObj_bind_apply, getObj_bind_apply]
    cases anyAgg with
    | true =>
      simp only [if_true, hagg]
      exact (agree_fromExcept _ h).bind fun _ _ _ _ h => .ok _ h
    | false =>
      simp only [Bool.false_eq_true, if_false, hplain]
      exact (agree_fromExcept _ h).bind fun _ _ _ _ h => .ok _ h

end Rows

/-! ### In the server -/

section Server
variable {s : OnDisk ι (Dbms ι)} {v : OnDisk (KeyMap lost) (Dbms (KeyMap lost))}

theorem resolveDatabase_twins (h : Dbms.TwinsOn T s v) (ref : TableRef) :
    Agree (Dbms.TwinsOn T) (resolveDatabase ref s) (resolveDatabase ref v) := by
  unfold resolveDatabase
  by_cases href : ref.database ≠ []
  · rw [if_pos href, if_pos href]
    exact Dbms.requireDatabase_twins h _
  · rw [if_neg href, if_neg href]
    exact Dbms.activeOrThrow_twins h

/-- A database that was resolved is the one the reference means. -/
theorem resolveDatabase_ok {ref : TableRef} {db : Str}
    {v' : OnDisk (KeyMap lost) (Dbms (KeyMap lost))} (h : resolveDatabase ref v = .ok db v') :
    db = databaseOf v.obj ref ∧ v' = v := by
  rcases resolveDatabase_run v ref with ⟨hrun, -⟩ | ⟨e, hrun⟩
  · rw [hrun] at h
    cases h
    exact ⟨rfl, rfl⟩
  · rw [hrun] at h
    cases h

theorem databaseName_twins (h : Dbms.TwinsOn T s v) (db : Str) :
    Agree (Dbms.TwinsOn T) (databaseName db s) (databaseName db v) := by
  refine Dbms.onDatabase_twins h db fun d e _ _ hde => ?_
  rw [getObj_bind_apply, getObj_bind_apply, hde.name]
  exact .ok _ ⟨hde, h.files⟩

/-- Work on a table that a reference means. -/
theorem onTableOf_twins {α : Type} (h : Dbms.TwinsOn T s v) (db : Str) (ref : TableRef)
    {x : TableM ι α} {y : TableM (KeyMap lost) α}
    (hxy : ∀ t u, v.obj.tableAt db ref.table = some u → t.Twins T u →
      Agree (Table.TwinsOn T) (x ⟨t, s.fs⟩) (y ⟨u, v.fs⟩)) :
    Agree (Dbms.TwinsOn T) (onTableOf db ref x s) (onTableOf db ref y v) := by
  refine Dbms.onDatabase_twins h db fun d e _ he hde => ?_
  rw [Database.requireTable, Database.requireTable, bind_assoc, bind_assoc, getObj_bind_apply,
    getObj_bind_apply]
  have hlookup := hde.tables.lookup ref.table
  cases hu : e.tables.lookup ref.table with
  | none =>
    rw [hu] at hlookup
    rw [rel_none hlookup, Database.unknownTable, hde.name]
    exact .error _ ⟨hde, h.files⟩
  | some u =>
    rw [hu] at hlookup
    obtain ⟨t, ht, -⟩ := rel_some hlookup
    rw [ht]
    refine Database.onTable_twins ⟨hde, h.files⟩ ref.table fun t u _ hu' htu => hxy t u ?_ htu
    rw [Dbms.tableAt, he]
    exact hu'

theorem saveAndReport_twins (h : Dbms.TwinsOn T s v) (db : Str) (verb : String) (n : Nat) :
    Agree (Dbms.TwinsOn T) (saveAndReport db verb n s) (saveAndReport db verb n v) := by
  refine (databaseName_twins h db).bind fun name s v _ h => ?_
  exact (Dbms.saveDatabase_twins h name).bind fun _ _ _ _ h => .ok _ h

/-- A statement that changes the rows of a table, and the saving of its database. -/
theorem execOnTable_twins (h : Dbms.TwinsOn T s v) (ref : TableRef) (verb : String)
    {x : TableM ι Nat} {y : TableM (KeyMap lost) Nat} (hxy : ∀ t u, tableOf v.obj ref = some u →
      t.Twins T u → ∀ fs gs, FilesMirror T fs gs →
        Agree (Table.TwinsOn T) (x ⟨t, fs⟩) (y ⟨u, gs⟩)) :
    Agree (Dbms.TwinsOn T) (execOnTable ref verb x s) (execOnTable ref verb y v) := by
  refine (resolveDatabase_twins h ref).bind fun db s' v' hrun h' => ?_
  obtain ⟨rfl, rfl⟩ := resolveDatabase_ok hrun
  refine (onTableOf_twins h' _ ref fun t u hu htu => hxy t u hu htu _ _ h'.files).bind ?_
  exact fun n s v _ h => saveAndReport_twins h _ verb n

end Server

/-! ### Statements -/

/-- What the indexes of a server have to be for a statement: a new table has a plain name and
is indexed by keys of theirs, an INSERT finds room, and a condition asks for keys. -/
def Statement.Fits (Key : Value → Prop) (room : Nat)
    (v : OnDisk (KeyMap lost) (Dbms (KeyMap lost))) : Statement → Prop
  | .createTable s => Table.Keyed Key { columns := s.columns } ∧ Plain s.table.table
  | .insert s => ∀ u, tableOf v.obj s.table = some u →
    u.HasRoom room s.rows.length ∧ u.nextId + s.rows.length ≤ 2 ^ 64
  | .update s => ∀ u, tableOf v.obj s.table = some u → (deriveIndexHint s.where? u).Asks Key
  | .delete s => ∀ u, tableOf v.obj s.table = some u → (deriveIndexHint s.where? u).Asks Key
  | .select s => ∀ u, tableOf v.obj s.table = some u → (deriveIndexHint s.where? u).Asks Key
  | _ => True

section Statements
variable {s : OnDisk ι (Dbms ι)} {v : OnDisk (KeyMap lost) (Dbms (KeyMap lost))} (regex : Regex)

theorem execCreateTable_twins (h : Dbms.TwinsOn T s v) (htidy : Dbms.Tidy v) (st : CreateTableStmt)
    (hfits : (Statement.createTable st).Fits T.Key T.room v) :
    Agree (Dbms.TwinsOn T) (execCreateTable st s) (execCreateTable st v) := by
  refine (resolveDatabase_twins h st.table).bind fun db s' v' hrun h' => ?_
  obtain ⟨rfl, rfl⟩ := resolveDatabase_ok hrun
  refine (agree_fromExcept _ h').bind fun _ s'' v'' hcheck h'' => ?_
  have hsame : v'' = v' := by
    cases hc : checkColumnNames st.columns [] with
    | error e => rw [hc] at hcheck; cases hcheck
    | ok a => rw [hc] at hcheck; cases hcheck; rfl
  subst hsame
  have hcreate := Dbms.onDatabase_twins h'' (databaseOf v''.obj st.table) fun d e _ he hde =>
    Database.createTable_twins ⟨hde, h''.files⟩ st.table.table hfits.1 fun hnew dir hdir => by
      have hhoused := htidy.housed he
      rw [hhoused.placed.storageDir] at hdir
      cases hdir
      exact hhoused.noIndexes hfits.2 hnew
  refine hcreate.bind fun _ s v _ h => ?_
  refine (databaseName_twins h _).bind fun name s v _ h => ?_
  exact (Dbms.saveDatabase_twins h name).bind fun _ _ _ _ h => .ok _ h

theorem execDropTable_twins (h : Dbms.TwinsOn T s v) (ref : TableRef) :
    Agree (Dbms.TwinsOn T) (execDropTable ref s) (execDropTable ref v) := by
  refine (resolveDatabase_twins h ref).bind fun db s v _ h => ?_
  refine (Dbms.onDatabase_twins h db fun d e _ _ hde =>
    Database.dropTable_twins ⟨hde, h.files⟩ ref.table).bind fun _ s v _ h => ?_
  refine (databaseName_twins h db).bind fun name s v _ h => ?_
  exact (Dbms.saveDatabase_twins h name).bind fun _ _ _ _ h => .ok _ h

theorem execSelect_twins (h : Dbms.TwinsOn T s v) (st : SelectStmt)
    (hfits : (Statement.select st).Fits T.Key T.room v) :
    Agree (Dbms.TwinsOn T) (execSelect regex st s) (execSelect regex st v) := by
  refine (resolveDatabase_twins h st.table).bind fun db s' v' hrun h' => ?_
  obtain ⟨rfl, rfl⟩ := resolveDatabase_ok hrun
  exact onTableOf_twins h' _ st.table fun t u hu htu =>
    selectAll_twins regex ⟨htu, h'.files⟩ st.items (hfits u hu)

/-- A statement has the same outcome on twins, and leaves twins. -/
theorem exec_twins (h : Dbms.TwinsOn T s v) (htidy : Dbms.Tidy v) (stmt : Statement) (hfits : stmt.Fits T.Key T.room v) :
    Agree (Dbms.TwinsOn T) (exec regex stmt s) (exec regex stmt v) := by
  cases stmt with
  | createDatabase name =>
    refine (Dbms.createDatabase_twins h name).bind fun _ s v _ h => ?_
    exact (Dbms.saveDatabase_twins h name).bind fun _ _ _ _ h => .ok _ h
  | dropDatabase name =>
    exact (Dbms.dropDatabase_twins h name).bind fun _ _ _ _ h => .ok _ h
  | use name => exact (Dbms.useDatabase_twins h name).bind fun _ _ _ _ h => .ok _ h
  | createTable st => exact execCreateTable_twins h htidy st hfits
  | dropTable ref => exact execDropTable_twins h ref
  | insert st =>
    exact execOnTable_twins h st.table _ fun t u hu htu fs gs hfiles =>
      insertAll_twins ⟨htu, hfiles⟩ st.columns (hfits u hu).1 (hfits u hu).2
  | update st =>
    exact execOnTable_twins h st.table _ fun t u hu htu fs gs hfiles =>
      updateAll_twins regex ⟨htu, hfiles⟩ st.assignments (hfits u hu)
  | delete st =>
    exact execOnTable_twins h st.table _ fun t u hu htu fs gs hfiles =>
      deleteAll_twins regex ⟨htu, hfiles⟩ (hfits u hu)
  | select st => exact execSelect_twins regex h st hfits

theorem execute_twins (h : Dbms.TwinsOn T s v) (htidy : Dbms.Tidy v) (stmt : Statement)
    (hfits : stmt.Fits T.Key T.room v) :
    Agree (Dbms.TwinsOn T) (execute regex stmt s) (execute regex stmt v) := by
  have hexec := exec_twins regex h htidy stmt hfits
  cases hv : exec regex stmt v with
  | ok res v' =>
    rw [hv] at hexec
    obtain ⟨s', hs, h'⟩ := hexec.of_ok
    rw [execute, execute, hs, hv]
    exact .ok res h'
  | error e v' =>
    rw [hv] at hexec
    obtain ⟨s', hs, h'⟩ := hexec.of_error
    rw [execute, execute, hs, hv]
    cases e with
    | diverges => exact .error _ h'
    | _ => exact .ok _ h'

/-- The server over the ideal index, as a machine. -/
def idealServer (lost : Lost) (Key : Value → Prop) (room : Nat) (regex : Regex) :
    Spec Statement (OnDisk (KeyMap lost) (Dbms (KeyMap lost))) (Except Exn ExecutionResult) where
  Allowed stmt v := stmt.Fits Key room v
  after stmt v := stateOf (execute regex stmt v)
  answer stmt v := outcomeOf (execute regex stmt v)

theorem Statement.Fits.named {Key : Value → Prop} {room : Nat} {stmt : Statement}
    (h : stmt.Fits Key room v) : stmt.Named := by
  cases stmt with
  | createTable st => exact h.2
  | _ => exact trivial

/-- A server over an index that tracks the ideal one answers as the ideal server does, which
stays tidy. -/
theorem simulates_idealServer (T : Tracking ι lost) :
    Simulates (fun v s => Dbms.TwinsOn T s v ∧ Dbms.Tidy v)
      (fun stmt => attempt (execute regex stmt)) (idealServer lost T.Key T.room regex) := by
  intro stmt v s h hfits
  have hagree := execute_twins regex h.1 h.2 stmt hfits
  refine ⟨stateOf (execute regex stmt s), ?_, hagree.state, execute_tidy regex stmt hfits.named v h.2⟩
  refine (attempt_apply _ s).trans ?_
  rw [hagree.outcome]
  rfl

end Statements
end CwDb.Sql
