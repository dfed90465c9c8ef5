import CwDb.Sql.RowList
import CwDb.Core.Saving
import CwDb.Storage.RowAtomic

/-! INSERT, UPDATE and DELETE do what they mean.

A statement that changes rows first finds out what to do (`rowSteps`) and then
changes one row after the other. Run to the end, the steps give what
`RowList.apply` says (`execute_rows`). A step that throws leaves its own row alone,
unless an index refused a value as too long, and nothing takes back the steps
before it (`execute_stopped`). -/
namespace CwDb.Sql
open Foundation Storage DiskM

/-- The table of a statement that changes rows. -/
def Statement.target : Statement → Option TableRef
  | .insert s => some s.table
  | .update s => some s.table
  | .delete s => some s.table
  | _ => none

/-! ### Statements as steps -/

section Steps
variable {ι : Type} [TableIndex ι]

def runSteps : List (TableM ι Unit) → TableM ι Unit
  | [] => return
  | step :: steps => do
    step
    runSteps steps

/-- What a statement finds to do, row by row, before it changes the first row. -/
def rowSteps (regex : Regex) : Statement → TableM ι (List (TableM ι Unit))
  | .insert s => do
    let t ← getObj
    let positions ← fromExcept (insertPositions t s.columns)
    return s.rows.map (insertRow positions)
  | .update s => do
    let t ← getObj
    let assignments ← fromExcept (assignmentColumns t s.assignments)
    let matched ← matchedRows regex s.where?
    return matched.map (updateRow assignments)
  | .delete s => do
    let matched ← matchedRows regex s.where?
    return matched.map Table.erase
  | _ => return []

/-- A statement's work on its table. -/
def changeRows (regex : Regex) (stmt : Statement) : TableM ι Nat := do
  let steps ← rowSteps regex stmt
  runSteps steps
  return steps.length

theorem insertRows_eq (positions : List Nat) (rows : List (List Value)) :
    insertRows (ι := ι) positions rows = runSteps (rows.map (insertRow positions)) := by
  induction rows with
  | nil => rfl
  | cons row rows ih => rw [insertRows, List.map_cons, runSteps, ih]

theorem updateRows_eq (assignments : List (Nat × Expr)) (ids : List RecordId) :
    updateRows (ι := ι) assignments ids = runSteps (ids.map (updateRow assignments)) := by
  induction ids with
  | nil => rfl
  | cons id ids ih => rw [updateRows, List.map_cons, runSteps, ih]

theorem deleteRows_eq (ids : List RecordId) :
    deleteRows (ι := ι) ids = runSteps (ids.map Table.erase) := by
  induction ids with
  | nil => rfl
  | cons id ids ih => rw [deleteRows, List.map_cons, runSteps, ih]

/-- The statements of the source are these steps, and the saving of the database. -/
theorem exec_eq (regex : Regex) {stmt : Statement} {ref : TableRef} (h : stmt.target = some ref) :
    ∃ verb, exec (ι := ι) regex stmt = execOnTable ref verb (changeRows regex stmt) := by
  cases stmt with
  | insert s =>
    injection h with h
    subst h
    refine ⟨"Inserted", congrArg (execOnTable s.table "Inserted") ?_⟩
    simp only [insertAll, changeRows, rowSteps, bind_assoc, pure_bind, insertRows_eq,
      List.length_map]
  | update s =>
    injection h with h
    subst h
    refine ⟨"Updated", congrArg (execOnTable s.table "Updated") ?_⟩
    simp only [updateAll, changeRows, rowSteps, bind_assoc, pure_bind, updateRows_eq,
      List.length_map]
  | delete s =>
    injection h with h
    subst h
    refine ⟨"Deleted", congrArg (execOnTable s.table "Deleted") ?_⟩
    simp only [deleteAll, changeRows, rowSteps, bind_assoc, pure_bind, deleteRows_eq,
      List.length_map]
  | _ => cases h

/-- Steps that throw ran up to one that throws. -/
theorem runSteps_error {steps : List (TableM ι Unit)} {s s' : OnDisk ι (Table ι)} {e : Exn}
    (h : runSteps steps s = .error e s') : ∃ done step rest t,
      steps = done ++ step :: rest ∧ runSteps done s = .ok () t ∧ step t = .error e s' := by
  induction steps generalizing s with
  | nil => cases h
  | cons step steps ih =>
    rw [runSteps] at h
    rcases bind_eq_error.mp h with hstep | ⟨u, t, hstep, hrest⟩
    · exact ⟨[], step, steps, s, rfl, rfl, hstep⟩
    · obtain ⟨done, step', rest, t', hsteps, hdone, herr⟩ := ih hrest
      refine ⟨step :: done, step', rest, t', by rw [hsteps]; rfl, ?_, herr⟩
      rw [runSteps, bind_ok hstep, hdone]

end Steps

/-! ### One step -/

section OneStep
variable {lost : Lost} {s s' : OnDisk (KeyMap lost) (Table (KeyMap lost))}

/-- How an index refuses a key of more than 512 bytes. -/
def keyTooLarge : Exn := .runtimeError "Index key too large for disk page"

/-- Between sound states the table keeps its name and schema, and no file changes. -/
structure Advances (s s' : OnDisk (KeyMap lost) (Table (KeyMap lost))) : Prop where
  sound : s'.obj.Sound
  name : s'.obj.name = s.obj.name
  schema : s'.obj.schema = s.obj.schema
  fs : s'.fs = s.fs

theorem Advances.refl (hs : s.obj.Sound) : Advances s s := ⟨hs, rfl, rfl, rfl⟩

theorem Advances.trans {s'' : OnDisk (KeyMap lost) (Table (KeyMap lost))} (h : Advances s s')
    (h' : Advances s' s'') : Advances s s'' :=
  ⟨h'.sound, h'.name.trans h.name, h'.schema.trans h.schema, h'.fs.trans h.fs⟩

/-- What an index refuses of a record that passed the checks is too long a key. -/
theorem install_refused (hs : s.obj.Opened) {id : RecordId} {r : Record} {e : Exn}
    (hnew : ∀ col ∈ s.obj.schema.indexedColumns, ∀ m, s.obj.indexes col = some m →
      (r.value col).isNull = false ∧ lookupKey (r.value col) m.entries = none)
    (h : Table.installIntoIndexes id r s = .error e s') : e = keyTooLarge := by
  rw [Table.installIntoIndexes, getObj_bind_apply] at h
  obtain ⟨-, col, hcol, m, d, hm, hy⟩ := (Table.install_loop _ id r).run_error hs
    s.obj.schema.indexedColumns_nodup (fun _ h => h) h
  obtain ⟨hnull, habs⟩ := hnew col hcol m hm
  have hn : ¬ (r.value col).isNull = true := by
    rw [hnull]
    exact Bool.false_ne_true
  rw [Table.installStep, if_neg hn] at hy
  change KeyMap.insert (r.value col) id m = .error e d at hy
  rw [KeyMap.insert] at hy
  split at hy
  · rw [habs] at hy
    cases hy
  · injection hy with he
    exact he.symm

theorem insert_refused (hs : s.obj.Agrees) {r : Record} {e : Exn}
    (h : Table.insert r s = .error e s') : s' = s ∨ e = keyTooLarge := by
  rcases Table.accepted_or_error s r none with hacc | ⟨e', he'⟩
  · right
    rw [Table.insert_of_accepted hacc, hs.fresh, Option.getD_none] at h
    rcases bind_eq_error.mp h with h | ⟨u, t, -, h⟩
    · refine install_refused (Table.withRow_opened hs.opened r) ?_ h
      intro col hcol m hm
      refine ⟨Table.accepted_not_null hacc col hcol, ?_⟩
      rcases Table.accepted_lookup hs hacc hcol hm with habs | habs <;> exact habs
    · cases h
  · rw [Table.insert_of_rejected he'] at h
    injection h with _ h
    exact .inl h.symm

theorem update_refused (hs : s.obj.Agrees) {id : RecordId} {assignments : List (Nat × Value)}
    {e : Exn} (h : Table.update id assignments s = .error e s') : s' = s ∨ e = keyTooLarge := by
  cases hold : s.obj.records id with
  | none =>
    rw [Table.update_of_missing hold] at h
    injection h with _ h
    exact .inl h.symm
  | some old =>
    rcases Table.accepted_or_error s (old.assign assignments) (some id) with hacc | ⟨e', he'⟩
    · right
      rw [Table.update_of_accepted hs hold hacc] at h
      refine install_refused (Table.withoutKeys_opened hs.opened id old _) ?_ h
      intro col hcol m hm
      replace hcol : col ∈ s.obj.schema.indexedColumns := hcol
      refine ⟨Table.accepted_not_null hacc col hcol, ?_⟩
      exact Table.lookup_withoutKeys hs hold hacc hcol hm
    · rw [Table.update_of_rejected hold he'] at h
      injection h with _ h
      exact .inl h.symm

/-- An INSERT step that returns: the record of its VALUE row went in. -/
theorem insertRow_ok (hs : s.obj.Sound) {columns : List Str} {positions : List Nat}
    (hpos : Listing s.obj.schema columns positions) {row : List Value}
    (h : insertRow positions row s = .ok () s') :
    Advances s s' ∧
      s' = { s with obj := s.obj.inserted (insertedRow s.obj.schema columns row) } := by
  rw [insertRow] at h
  split at h
  · cases h
  · rename_i hlen
    rw [getObj_bind_apply] at h
    obtain ⟨r, t, hr, h⟩ := bind_eq_ok.mp h
    cases hm : s.obj.materialize positions row with
    | error e => rw [hm] at hr; cases hr
    | ok r' =>
      rw [hm] at hr
      injection hr with hr ht
      subst hr ht
      obtain ⟨id, t, hins, h⟩ := bind_eq_ok.mp h
      injection h with _ h
      subst h
      have hrow := materialize_insertedRow hpos (by simpa using hlen) hm
      obtain ⟨hacc, -, rfl⟩ := Table.insert_step hs.toAgrees hins
      have hkeys := (Table.insert_ok hs.toAgrees hins).2
      exact ⟨⟨Table.inserted_sound hs hacc hkeys, rfl, rfl, rfl⟩, by rw [hrow]⟩

theorem insertRow_error (hs : s.obj.Agrees) {positions : List Nat} {row : List Value} {e : Exn}
    (h : insertRow positions row s = .error e s') : s' = s ∨ e = keyTooLarge := by
  rw [insertRow] at h
  split at h
  · injection h with _ h
    exact .inl h.symm
  · rw [getObj_bind_apply] at h
    cases hm : s.obj.materialize positions row with
    | error e' =>
      rw [hm] at h
      injection h with _ h
      exact .inl h.symm
    | ok r =>
      rw [hm] at h
      rcases bind_eq_error.mp h with h | ⟨r', t, hr, h⟩
      · cases h
      · injection hr with hr ht
        subst hr ht
        rcases bind_eq_error.mp h with h | ⟨id, t, -, h⟩
        · exact insert_refused hs h
        · cases h

theorem updateRow_of_ok {columns : List (Nat × Expr)} {id : RecordId} {old : Record}
    {assigns : List (Nat × Value)} (hold : s.obj.records id = some old)
    (h : evalAssignments s.obj old columns = .ok assigns) :
    updateRow columns id s = Table.update id assigns s := by
  rw [updateRow, getObj_bind_apply, hold]
  exact bind_ok (x := fromExcept (evalAssignments s.obj old columns)) (by rw [h]; rfl)

theorem updateRow_of_error {columns : List (Nat × Expr)} {id : RecordId} {old : Record} {e : Exn}
    (hold : s.obj.records id = some old) (h : evalAssignments s.obj old columns = .error e) :
    updateRow columns id s = .error e s := by
  rw [updateRow, getObj_bind_apply, hold]
  exact bind_error (x := fromExcept (evalAssignments s.obj old columns)) (by rw [h]; rfl)

theorem updateRow_of_missing {columns : List (Nat × Expr)} {id : RecordId}
    (hold : s.obj.records id = none) :
    updateRow columns id s = .error (.outOfRange "unordered_map::at") s := by
  rw [updateRow, getObj_bind_apply, hold]
  rfl

/-- An UPDATE step that returns: the row has its new values. -/
theorem updateRow_ok (hs : s.obj.Sound) {assignments : List (Str × Expr)}
    {columns : List (Nat × Expr)} (hcols : Resolving s.obj.schema assignments columns)
    {id : RecordId} (h : updateRow columns id s = .ok () s') :
    Advances s s' ∧ ∃ old, s.obj.records id = some old ∧
      s' = { s with obj := s.obj.updated id old (updatedRow s.obj.schema assignments old) } := by
  cases hold : s.obj.records id with
  | none =>
    rw [updateRow_of_missing hold] at h
    cases h
  | some old =>
    cases he : evalAssignments s.obj old columns with
    | error e =>
      rw [updateRow_of_error hold he] at h
      cases h
    | ok assigns =>
      rw [updateRow_of_ok hold he] at h
      obtain ⟨old', hold', hacc, rfl⟩ := Table.update_step hs.toAgrees h
      obtain ⟨old'', hold'', -, hkeys⟩ := Table.update_ok hs.toAgrees h
      rw [hold] at hold' hold''
      injection hold' with hold'
      injection hold'' with hold''
      subst hold' hold''
      refine ⟨⟨Table.updated_sound hs hold hacc hkeys, rfl, rfl, rfl⟩, old, rfl, ?_⟩
      rw [assign_updatedRow hcols he]

theorem updateRow_error (hs : s.obj.Agrees) {columns : List (Nat × Expr)} {id : RecordId} {e : Exn}
    (h : updateRow columns id s = .error e s') : s' = s ∨ e = keyTooLarge := by
  cases hold : s.obj.records id with
  | none =>
    rw [updateRow_of_missing hold] at h
    injection h with _ h
    exact .inl h.symm
  | some old =>
    cases he : evalAssignments s.obj old columns with
    | error e' =>
      rw [updateRow_of_error hold he] at h
      injection h with _ h
      exact .inl h.symm
    | ok assigns =>
      rw [updateRow_of_ok hold he] at h
      exact update_refused hs h

/-- A DELETE step returns: the row is gone. -/
theorem erase_row (hs : s.obj.Sound) {id : RecordId} {r : Record}
    (hr : s.obj.records id = some r) :
    Table.erase id s = .ok () { s with obj := s.obj.withoutRow id r } ∧
      Advances s { s with obj := s.obj.withoutRow id r } :=
  ⟨Table.erase_of_present hs.toAgrees hr, Table.withoutRow_sound hs hr, rfl, rfl, rfl⟩

end OneStep

/-! ### The steps of a statement -/

section Runs
variable {lost : Lost} {s s' : OnDisk (KeyMap lost) (Table (KeyMap lost))}

theorem insert_run {columns : List Str} {positions : List Nat} {rows : List (List Value)}
    (hs : s.obj.Sound) (hpos : Listing s.obj.schema columns positions)
    (h : runSteps (rows.map (insertRow positions)) s = .ok () s') :
    Advances s s' ∧ rowList s'.obj =
      { rows := (rowList s.obj).rows ++ rows.mapIdx fun i row =>
          (s.obj.nextId + i, insertedRow s.obj.schema columns row)
        nextId := s.obj.nextId + rows.length } := by
  induction rows generalizing s with
  | nil =>
    injection h with _ h
    subst h
    exact ⟨.refl hs, by simp [rowList]⟩
  | cons row rows ih =>
    obtain ⟨u, t, hstep, hrest⟩ := bind_eq_ok.mp h
    obtain ⟨hadv, rfl⟩ := insertRow_ok hs hpos hstep
    obtain ⟨hadv', hrows⟩ := ih hadv.sound (hadv.schema ▸ hpos) hrest
    refine ⟨hadv.trans hadv', ?_⟩
    have hlater : (rows.mapIdx fun i row' =>
        (s.obj.nextId + 1 + i, insertedRow s.obj.schema columns row')) =
        rows.mapIdx fun i row' => (s.obj.nextId + (i + 1), insertedRow s.obj.schema columns row') := by
      congr 1
      funext i row'
      rw [Nat.add_assoc, Nat.add_comm 1 i]
    rw [hrows]
    show RowList.mk ((rowList (s.obj.inserted _)).rows ++ rows.mapIdx fun i row' =>
      (s.obj.nextId + 1 + i, insertedRow s.obj.schema columns row')) (s.obj.nextId + 1 + rows.length) = _
    rw [rows_inserted hs, hlater, List.append_assoc, List.singleton_append, List.mapIdx_cons,
      List.length_cons, Nat.add_assoc, Nat.add_comm 1]
    rfl

/-- UPDATE steps on different rows of the table that return: those rows have their new
values, each evaluated on the row as it was. -/
theorem update_run {assignments : List (Str × Expr)} {columns : List (Nat × Expr)}
    {ids : List RecordId} (hs : s.obj.Sound)
    (hcols : Resolving s.obj.schema assignments columns) (hnd : ids.Nodup)
    (h : runSteps (ids.map (updateRow columns)) s = .ok () s') :
    Advances s s' ∧ s'.obj.order = s.obj.order ∧ s'.obj.nextId = s.obj.nextId ∧
      ∀ i, s'.obj.records i =
        if i ∈ ids then (s.obj.records i).map (updatedRow s.obj.schema assignments)
        else s.obj.records i := by
  induction ids generalizing s with
  | nil =>
    injection h with _ h
    subst h
    exact ⟨.refl hs, rfl, rfl, fun i => by simp⟩
  | cons id ids ih =>
    obtain ⟨hnot, hnd⟩ := List.nodup_cons.mp hnd
    obtain ⟨u, t, hstep, hrest⟩ := bind_eq_ok.mp h
    obtain ⟨hadv, old, hold, rfl⟩ := updateRow_ok hs hcols hstep
    obtain ⟨hadv', horder, hnext, hrecords⟩ := ih hadv.sound (hadv.schema ▸ hcols) hnd hrest
    refine ⟨hadv.trans hadv', horder, hnext, fun i => ?_⟩
    have hrec : (s.obj.updated id old (updatedRow s.obj.schema assignments old)).records i =
        if i = id then some (updatedRow s.obj.schema assignments old) else s.obj.records i :=
      Function.update_apply ..
    rw [hrecords i, hadv.schema, hrec]
    by_cases hi : i = id
    · subst hi
      simp [hnot, hold]
    · simp [hi]

/-- DELETE steps on different rows of the table return, and those rows are gone. -/
theorem delete_run {ids : List RecordId} (hs : s.obj.Sound) (hnd : ids.Nodup)
    (hids : ∀ id ∈ ids, ∃ r, s.obj.records id = some r) :
    ∃ s', runSteps (ids.map Table.erase) s = .ok () s' ∧ Advances s s' ∧
      s'.obj.nextId = s.obj.nextId ∧ s'.obj.order = s.obj.order.filter (· ∉ ids) ∧
        ∀ i, s'.obj.records i = if i ∈ ids then none else s.obj.records i := by
  induction ids generalizing s with
  | nil => exact ⟨s, rfl, .refl hs, rfl, by simp, fun i => by simp⟩
  | cons id ids ih =>
    obtain ⟨hnot, hnd⟩ := List.nodup_cons.mp hnd
    obtain ⟨r, hr⟩ := hids id (List.mem_cons_self ..)
    obtain ⟨hstep, hadv⟩ := erase_row hs hr
    have hrec : ∀ i, (s.obj.withoutRow id r).records i =
        if i = id then none else s.obj.records i := fun i => Function.update_apply ..
    obtain ⟨s', hrun, hadv', hnext, horder, hrecords⟩ := ih hadv.sound hnd fun i hi => by
      obtain ⟨x, hx⟩ := hids i (List.mem_cons_of_mem id hi)
      exact ⟨x, by rw [hrec, if_neg (by rintro rfl; exact hnot hi), hx]⟩
    refine ⟨s', ?_, hadv.trans hadv', hnext, ?_, fun i => ?_⟩
    · rw [List.map_cons, runSteps, bind_ok hstep, hrun]
    · rw [horder]
      show (s.obj.order.erase id).filter _ = _
      rw [hs.order_nodup.erase_eq_filter, List.filter_filter]
      refine List.filter_congr fun i _ => ?_
      by_cases hi : i = id <;> simp [hi]
    · rw [hrecords i, hrec]
      by_cases hi : i = id
      · simp [hi]
      · simp [hi]

/-- The ids a condition finds: each once, exactly those of the rows it is true of. -/
structure Matches (regex : Regex) (t : Table (KeyMap lost)) (cond : Option Expr)
    (ids : List RecordId) : Prop where
  nodup : ids.Nodup
  mem : ∀ id, id ∈ ids ↔ ∃ r, t.records id = some r ∧ Selected regex t.schema cond r

theorem rowSteps_insert {regex : Regex} {st : InsertStmt}
    {steps : List (TableM (KeyMap lost) Unit)}
    (h : rowSteps regex (.insert st) s = .ok steps s') :
    s' = s ∧ ∃ positions, Listing s.obj.schema st.columns positions ∧
      steps = st.rows.map (insertRow positions) := by
  rw [rowSteps, getObj_bind_apply] at h
  cases hpos : insertPositions s.obj st.columns with
  | error e => rw [hpos] at h; cases h
  | ok positions =>
    rw [hpos] at h
    injection h with hsteps hs'
    exact ⟨hs'.symm, positions, insertPositions_ok hpos, hsteps.symm⟩

theorem rowSteps_update (hs : s.obj.Sound) {regex : Regex} {st : UpdateStmt}
    {steps : List (TableM (KeyMap lost) Unit)}
    (h : rowSteps regex (.update st) s = .ok steps s') :
    s' = s ∧ ∃ columns ids, Resolving s.obj.schema st.assignments columns ∧
      Matches regex s.obj st.where? ids ∧ steps = ids.map (updateRow columns) := by
  rw [rowSteps, getObj_bind_apply] at h
  cases hcols : assignmentColumns s.obj st.assignments with
  | error e => rw [hcols] at h; cases h
  | ok columns =>
    rw [hcols, bind_ok (fromExcept_ok_apply columns s)] at h
    obtain ⟨ids, t, hids, h⟩ := bind_eq_ok.mp h
    injection h with hsteps hs'
    obtain ⟨rfl, hnd, hmem⟩ := matchedRows_ok hs hids
    exact ⟨hs'.symm, columns, ids, assignmentColumns_ok hcols, ⟨hnd, hmem⟩, hsteps.symm⟩

theorem rowSteps_delete (hs : s.obj.Sound) {regex : Regex} {st : DeleteStmt}
    {steps : List (TableM (KeyMap lost) Unit)}
    (h : rowSteps regex (.delete st) s = .ok steps s') :
    s' = s ∧ ∃ ids, Matches regex s.obj st.where? ids ∧ steps = ids.map Table.erase := by
  obtain ⟨ids, t, hids, h⟩ := bind_eq_ok.mp h
  injection h with hsteps hs'
  obtain ⟨rfl, hnd, hmem⟩ := matchedRows_ok hs hids
  exact ⟨hs'.symm, ids, ⟨hnd, hmem⟩, hsteps.symm⟩

/-- What a statement finds out first changes nothing. -/
theorem rowSteps_error (hs : s.obj.Sound) {regex : Regex} {stmt : Statement} {e : Exn}
    (h : rowSteps regex stmt s = .error e s') : s' = s := by
  cases stmt with
  | insert st =>
    rw [rowSteps, getObj_bind_apply] at h
    cases hpos : insertPositions s.obj st.columns with
    | error e' =>
      rw [hpos] at h
      injection h with _ h
      exact h.symm
    | ok positions => rw [hpos] at h; cases h
  | update st =>
    rw [rowSteps, getObj_bind_apply] at h
    cases hcols : assignmentColumns s.obj st.assignments with
    | error e' =>
      rw [hcols] at h
      injection h with _ h
      exact h.symm
    | ok columns =>
      rw [hcols, bind_ok (fromExcept_ok_apply columns s)] at h
      rcases bind_eq_error.mp h with h | ⟨ids, t, -, h⟩
      · exact matchedRows_error hs h
      · cases h
  | delete st =>
    rcases bind_eq_error.mp h with h | ⟨ids, t, -, h⟩
    · exact matchedRows_error hs h
    · cases h
  | _ => cases h

/-- Among the rows of the table, the ids found are those of the rows the condition is
true of. -/
theorem Matches.mem_row {regex : Regex} {t : Table (KeyMap lost)} {cond : Option Expr}
    {ids : List RecordId} (h : Matches regex t cond ids) {p : RecordId × Record}
    (hp : p ∈ (rowList t).rows) : p.1 ∈ ids ↔ holds regex t.schema cond p.2 = true := by
  rw [h.mem, holds_iff, (mem_rows.mp hp).2]
  simp

theorem Matches.length {regex : Regex} {t : Table (KeyMap lost)} {cond : Option Expr}
    {ids : List RecordId} (h : Matches regex t cond ids) (ht : t.Sound) :
    ids.length = (rowList t).rows.countP fun p => holds regex t.schema cond p.2 := by
  have hperm : ids.Perm
      (((rowList t).rows.filter fun p => holds regex t.schema cond p.2).map Prod.fst) := by
    refine (List.perm_ext_iff_of_nodup h.nodup ?_).mpr fun id => ?_
    · exact (rows_nodup ht).sublist (List.filter_sublist.map _)
    · rw [h.mem, List.mem_map]
      constructor
      · rintro ⟨r, hr, hsel⟩
        have hid : id ∈ t.order := (ht.mem_order id).mpr (by rw [hr]; rfl)
        exact ⟨(id, r), List.mem_filter.mpr ⟨mem_rows.mpr ⟨hid, hr⟩, (holds_iff ..).mpr hsel⟩, rfl⟩
      · rintro ⟨p, hp, rfl⟩
        obtain ⟨hp, hsel⟩ := List.mem_filter.mp hp
        exact ⟨p.2, (mem_rows.mp hp).2, (holds_iff ..).mp hsel⟩
  rw [hperm.length_eq, List.length_map, List.countP_eq_length_filter]

/-- The work of a statement that returns is what the statement means. -/
theorem changeRows_ok (hs : s.obj.Sound) {regex : Regex} {stmt : Statement} {n : Nat}
    (h : changeRows regex stmt s = .ok n s') :
    Advances s s' ∧
      (rowList s'.obj, n) = (rowList s.obj).apply regex s.obj.schema stmt := by
  obtain ⟨steps, t, hsteps, h⟩ := bind_eq_ok.mp h
  obtain ⟨u, t', hrun, hret⟩ := bind_eq_ok.mp h
  injection hret with hn ht
  subst hn ht
  cases stmt with
  | insert st =>
    obtain ⟨rfl, positions, hpos, rfl⟩ := rowSteps_insert hsteps
    obtain ⟨hadv, hrows⟩ := insert_run hs hpos hrun
    exact ⟨hadv, by rw [hrows, List.length_map]; rfl⟩
  | update st =>
    obtain ⟨rfl, columns, ids, hcols, hids, rfl⟩ := rowSteps_update hs hsteps
    obtain ⟨hadv, horder, hnext, hrecords⟩ := update_run hs hcols hids.nodup hrun
    refine ⟨hadv, ?_⟩
    have hrows : (rowList t'.obj).rows = (rowList t.obj).rows.map fun p =>
        (p.1, if holds regex t.obj.schema st.where? p.2 then
          updatedRow t.obj.schema st.assignments p.2 else p.2) := by
      rw [rows_changed horder hrecords]
      refine List.map_congr_left fun p hp => ?_
      simp only [hids.mem_row hp]
    rw [List.length_map, hids.length hs, RowList.apply, ← hrows]
    exact congrArg (fun n => (RowList.mk (rowList t'.obj).rows n, _)) hnext
  | delete st =>
    obtain ⟨rfl, ids, hids, rfl⟩ := rowSteps_delete hs hsteps
    obtain ⟨t'', hrun', hadv, hnext, horder, hrecords⟩ := delete_run hs hids.nodup fun id hid => by
      obtain ⟨r, hr, -⟩ := (hids.mem id).mp hid
      exact ⟨r, hr⟩
    rw [hrun] at hrun'
    injection hrun' with _ ht
    subst ht
    refine ⟨hadv, ?_⟩
    have hrows : (rowList t'.obj).rows = (rowList t.obj).rows.filter fun p =>
        !holds regex t.obj.schema st.where? p.2 := by
      rw [rows_removed horder hrecords]
      refine List.filter_congr fun p hp => ?_
      have hp' := hids.mem_row hp
      by_cases hin : p.1 ∈ ids
      · simp [hin, hp'.mp hin]
      · simp [hin, Bool.eq_false_iff.mpr (fun h => hin (hp'.mpr h))]
    rw [List.length_map, hids.length hs, RowList.apply, ← hrows]
    exact congrArg (fun n => (RowList.mk (rowList t'.obj).rows n, _)) hnext
  | _ =>
    injection hsteps with hsteps ht
    subst hsteps ht
    injection hrun with _ ht
    subst ht
    exact ⟨.refl hs, rfl⟩

/-! ### Statements that stop -/

/-- The statement stops at a row, which it leaves as it was, with the rows before that
one done. -/
def StopsAt (regex : Regex) (stmt : Statement) (e : Exn)
    (s s' : OnDisk (KeyMap lost) (Table (KeyMap lost))) : Prop :=
  ∃ done step rest, rowSteps regex stmt s = .ok (done ++ step :: rest) s ∧
    runSteps done s = .ok () s' ∧ step s' = .error e s'

/-- The rows then: the first VALUE rows appended, or some of the selected rows changed,
or all as they were. -/
inductive RowList.Stopped (regex : Regex) (schema : TableSchema) (t : RowList) :
    Statement → RowList → Prop
  | insert (st : InsertStmt) (k : Nat) (hk : k < st.rows.length) : Stopped regex schema t
      (.insert st) (t.apply regex schema (.insert { st with rows := st.rows.take k })).1
  | update (st : UpdateStmt) (ids : List RecordId)
      (hids : ∀ p ∈ t.rows, p.1 ∈ ids → holds regex schema st.where? p.2 = true)
      (hmore : ∃ p ∈ t.rows, holds regex schema st.where? p.2 = true ∧ p.1 ∉ ids) :
      Stopped regex schema t (.update st) { t with rows := t.rows.map fun p =>
        (p.1, if p.1 ∈ ids then updatedRow schema st.assignments p.2 else p.2) }
  | before (stmt : Statement) : Stopped regex schema t stmt t

theorem insert_stops (regex : Regex) (hs : s.obj.Sound) {st : InsertStmt} {positions : List Nat}
    (hpos : Listing s.obj.schema st.columns positions) {done rest : List (TableM (KeyMap lost) Unit)}
    {step : TableM (KeyMap lost) Unit}
    (hsteps : st.rows.map (insertRow positions) = done ++ step :: rest)
    {t : OnDisk (KeyMap lost) (Table (KeyMap lost))} (hdone : runSteps done s = .ok () t) {e : Exn}
    (hstep : step t = .error e s') (he : e ≠ keyTooLarge) :
    s' = t ∧ Advances s t ∧
      (rowList s.obj).Stopped regex s.obj.schema (.insert st) (rowList t.obj) := by
  obtain ⟨rows, later, hrows, rfl, hlater⟩ := List.map_eq_append_iff.mp hsteps
  obtain ⟨row, later, rfl, rfl, -⟩ := List.map_eq_cons_iff.mp hlater
  obtain ⟨hadv, hlist⟩ := insert_run hs hpos hdone
  have hk : rows.length < st.rows.length := by
    rw [hrows, List.length_append, List.length_cons]
    omega
  have htake : st.rows.take rows.length = rows := by rw [hrows, List.take_left]
  refine ⟨(insertRow_error hadv.sound.toAgrees hstep).resolve_right he, hadv, ?_⟩
  rw [hlist]
  have hstop : (rowList s.obj).Stopped regex s.obj.schema (.insert st) _ :=
    .insert st rows.length hk
  rw [htake] at hstop
  exact hstop

theorem update_stops (hs : s.obj.Sound) {regex : Regex} {st : UpdateStmt}
    {columns : List (Nat × Expr)} (hcols : Resolving s.obj.schema st.assignments columns)
    {ids : List RecordId} (hids : Matches regex s.obj st.where? ids)
    {done rest : List (TableM (KeyMap lost) Unit)} {step : TableM (KeyMap lost) Unit}
    (hsteps : ids.map (updateRow columns) = done ++ step :: rest)
    {t : OnDisk (KeyMap lost) (Table (KeyMap lost))} (hdone : runSteps done s = .ok () t) {e : Exn}
    (hstep : step t = .error e s') (he : e ≠ keyTooLarge) :
    s' = t ∧ Advances s t ∧
      (rowList s.obj).Stopped regex s.obj.schema (.update st) (rowList t.obj) := by
  obtain ⟨first, later, rfl, rfl, hlater⟩ := List.map_eq_append_iff.mp hsteps
  obtain ⟨id, later, rfl, rfl, -⟩ := List.map_eq_cons_iff.mp hlater
  obtain ⟨hnd, -, hdisj⟩ := List.nodup_append.mp hids.nodup
  obtain ⟨hadv, horder, hnext, hrecords⟩ := update_run hs hcols hnd hdone
  refine ⟨(updateRow_error hadv.sound.toAgrees hstep).resolve_right he, hadv, ?_⟩
  obtain ⟨r, hr, hsel⟩ := (hids.mem id).mp (by simp)
  have hid : id ∈ s.obj.order := (hs.mem_order id).mpr (by rw [hr]; rfl)
  have hlist : rowList t.obj = { rowList s.obj with rows := (rowList s.obj).rows.map fun p =>
      (p.1, if p.1 ∈ first then updatedRow s.obj.schema st.assignments p.2 else p.2) } := by
    rw [← rows_changed horder hrecords]
    exact congrArg (RowList.mk (rowList t.obj).rows) hnext
  rw [hlist]
  refine .update st first ?_ ⟨(id, r), mem_rows.mpr ⟨hid, hr⟩, (holds_iff ..).mpr hsel, ?_⟩
  · exact fun p hp hin => (hids.mem_row hp).mp (List.mem_append_left _ hin)
  · exact fun hin => hdisj id hin id (by simp) rfl

/-- The work of a statement that throws, other than at an over-long key, stopped at a
row, and the rows before it are done. -/
theorem changeRows_error (hs : s.obj.Sound) {regex : Regex} {stmt : Statement} {e : Exn}
    (h : changeRows regex stmt s = .error e s') (he : e ≠ keyTooLarge) :
    Advances s s' ∧ (s' = s ∨ StopsAt regex stmt e s s') ∧
      (rowList s.obj).Stopped regex s.obj.schema stmt (rowList s'.obj) ∧
        ((∃ st, stmt = .delete st) → s' = s) := by
  rcases bind_eq_error.mp h with hfind | ⟨steps, t, hsteps, hwork⟩
  · obtain rfl := rowSteps_error hs hfind
    exact ⟨.refl hs, .inl rfl, .before stmt, fun _ => rfl⟩
  rcases bind_eq_error.mp hwork with hrun | ⟨u, t', -, hret⟩
  · obtain ⟨done, step, rest, t', rfl, hdone, hstep⟩ := runSteps_error hrun
    cases stmt with
    | insert st =>
      obtain ⟨rfl, positions, hpos, hmap⟩ := rowSteps_insert hsteps
      obtain ⟨rfl, hadv, hstop⟩ := insert_stops regex hs hpos hmap.symm hdone hstep he
      exact ⟨hadv, .inr ⟨done, step, rest, hsteps, hdone, hstep⟩, hstop, by rintro ⟨st, ⟨⟩⟩⟩
    | update st =>
      obtain ⟨rfl, columns, ids, hcols, hids, hmap⟩ := rowSteps_update hs hsteps
      obtain ⟨rfl, hadv, hstop⟩ := update_stops hs hcols hids hmap.symm hdone hstep he
      exact ⟨hadv, .inr ⟨done, step, rest, hsteps, hdone, hstep⟩, hstop, by rintro ⟨st, ⟨⟩⟩⟩
    | delete st =>
      obtain ⟨rfl, ids, hids, hmap⟩ := rowSteps_delete hs hsteps
      obtain ⟨t'', hall, -⟩ := delete_run hs hids.nodup fun id hid => by
        obtain ⟨r, hr, -⟩ := (hids.mem id).mp hid
        exact ⟨r, hr⟩
      rw [← hmap, hrun] at hall
      cases hall
    | _ =>
      injection hsteps with hsteps _
      cases done <;> cases hsteps
  · cases hret

end Runs

/-! ### In the server -/

section Server
variable {ι : Type} [TableIndex ι]

/-- The database a reference means. -/
def databaseOf (s : Dbms ι) (ref : TableRef) : Str :=
  if ref.database ≠ [] then ref.database else s.active

/-- A statement's own work: all but the saving of the database. -/
def changeTable (regex : Regex) (ref : TableRef) (stmt : Statement) : DbmsM ι Nat := do
  let db ← resolveDatabase ref
  onTableOf db ref (changeRows regex stmt)

/-- The server with a table replaced. -/
def putTable (s : OnDisk ι (Dbms ι)) (db : Str) (d : Database ι) (tbl : Str)
    (u : OnDisk ι (Table ι)) : OnDisk ι (Dbms ι) :=
  ⟨{ s.obj with databases :=
      s.obj.databases.insert db { d with tables := d.tables.insert tbl u.obj } }, u.fs⟩

variable {s : OnDisk ι (Dbms ι)} {ref : TableRef}

theorem tableAt_putTable_self (s : OnDisk ι (Dbms ι)) (db : Str) (d : Database ι) (tbl : Str)
    (u : OnDisk ι (Table ι)) : (putTable s db d tbl u).obj.tableAt db tbl = some u.obj := by
  rw [putTable, Dbms.tableAt, AList.lookup_insert]
  exact AList.lookup_insert _

theorem tableAt_putTable_ne {db : Str} {d : Database ι} (hd : s.obj.databases.lookup db = some d)
    {tbl db' tbl' : Str} (h : (db', tbl') ≠ (db, tbl)) (u : OnDisk ι (Table ι)) :
    (putTable s db d tbl u).obj.tableAt db' tbl' = s.obj.tableAt db' tbl' := by
  rw [putTable, Dbms.tableAt, Dbms.tableAt]
  by_cases hdb : db' = db
  · subst hdb
    have htbl : tbl' ≠ tbl := fun ht => h (by rw [ht])
    rw [AList.lookup_insert, hd]
    exact AList.lookup_insert_ne htbl
  · rw [AList.lookup_insert_ne hdb]

/-- Either the database of a reference is there, or resolving it throws. -/
theorem resolveDatabase_run (s : OnDisk ι (Dbms ι)) (ref : TableRef) :
    (resolveDatabase ref s = .ok (databaseOf s.obj ref) s ∧
      ∃ d, s.obj.databases.lookup (databaseOf s.obj ref) = some d) ∨
    ∃ e, resolveDatabase ref s = .error e s := by
  have hrequire : ∀ name, (Dbms.requireDatabase name s = .ok name s ∧
      ∃ d, s.obj.databases.lookup name = some d) ∨
      ∃ e, Dbms.requireDatabase name s = .error e s := by
    intro name
    rw [Dbms.requireDatabase, getObj_bind_apply]
    cases s.obj.databases.lookup name with
    | none => exact .inr ⟨_, rfl⟩
    | some d => exact .inl ⟨rfl, d, rfl⟩
  by_cases href : ref.database ≠ []
  · rw [databaseOf, if_pos href, resolveDatabase, if_pos href]
    exact hrequire ref.database
  · rw [databaseOf, if_neg href, resolveDatabase, if_neg href, Dbms.activeOrThrow,
      getObj_bind_apply]
    by_cases hactive : s.obj.active = []
    · rw [if_pos hactive]
      exact .inr ⟨_, rfl⟩
    · rw [if_neg hactive]
      exact hrequire s.obj.active

theorem onTableOf_ok {α : Type} {db : Str} {d : Database ι} {t : Table ι} {x : TableM ι α} {a : α}
    {u : OnDisk ι (Table ι)} (hd : s.obj.databases.lookup db = some d)
    (ht : d.tables.lookup ref.table = some t) (hx : x ⟨t, s.fs⟩ = .ok a u) :
    onTableOf db ref x s = .ok a (putTable s db d ref.table u) := by
  have hreq : Database.requireTable ref.table (⟨d, s.fs⟩ : OnDisk ι (Database ι)) =
      .ok t ⟨d, s.fs⟩ := by
    rw [Database.requireTable, getObj_bind_apply, ht]
    rfl
  have htable : (do
      let _ ← Database.requireTable ref.table
      Database.onTable ref.table x) (⟨d, s.fs⟩ : OnDisk ι (Database ι)) =
      .ok a ⟨{ d with tables := d.tables.insert ref.table u.obj }, u.fs⟩ := by
    rw [bind_ok hreq]
    exact Database.onTable_ok ht hx
  exact Dbms.onDatabase_ok hd htable

theorem onTableOf_error {α : Type} {db : Str} {d : Database ι} {t : Table ι} {x : TableM ι α}
    {e : Exn} {u : OnDisk ι (Table ι)} (hd : s.obj.databases.lookup db = some d)
    (ht : d.tables.lookup ref.table = some t) (hx : x ⟨t, s.fs⟩ = .error e u) :
    onTableOf db ref x s = .error e (putTable s db d ref.table u) := by
  have hreq : Database.requireTable ref.table (⟨d, s.fs⟩ : OnDisk ι (Database ι)) =
      .ok t ⟨d, s.fs⟩ := by
    rw [Database.requireTable, getObj_bind_apply, ht]
    rfl
  have htable : (do
      let _ ← Database.requireTable ref.table
      Database.onTable ref.table x) (⟨d, s.fs⟩ : OnDisk ι (Database ι)) =
      .error e ⟨{ d with tables := d.tables.insert ref.table u.obj }, u.fs⟩ := by
    rw [bind_ok hreq]
    exact Database.onTable_error ht hx
  exact Dbms.onDatabase_error hd htable

/-- Without the table nothing is done, and every table is as it was. -/
theorem onTableOf_missing {α : Type} {db : Str} {d : Database ι} {x : TableM ι α}
    (hd : s.obj.databases.lookup db = some d) (ht : d.tables.lookup ref.table = none) :
    ∃ e s', onTableOf db ref x s = .error e s' ∧
      ∀ db' tbl', s'.obj.tableAt db' tbl' = s.obj.tableAt db' tbl' := by
  have hreq : Database.requireTable ref.table (⟨d, s.fs⟩ : OnDisk ι (Database ι)) =
      .error (d.unknownTable ref.table) ⟨d, s.fs⟩ := by
    rw [Database.requireTable, getObj_bind_apply, ht]
    rfl
  refine ⟨_, _, Dbms.onDatabase_error hd (bind_error hreq), fun db' tbl' => ?_⟩
  rw [Dbms.tableAt, Dbms.tableAt]
  by_cases hdb : db' = db
  · subst hdb
    rw [AList.lookup_insert, hd]
  · rw [AList.lookup_insert_ne hdb]

/-- The end of a statement that changed rows. -/
def saveAndReport (db : Str) (verb : String) (affected : Nat) : DbmsM ι ExecutionResult := do
  let name ← databaseName db
  Dbms.saveDatabase name
  return { output := .text (verb ++ " " ++ toString affected ++ " row(s)"), affectedRows := affected }

/-- A statement that changes rows, in its two parts. -/
theorem exec_parts (regex : Regex) {stmt : Statement} (h : stmt.target = some ref)
    (s : OnDisk ι (Dbms ι)) : ∃ verb, exec regex stmt s = (do
      let affected ← changeTable regex ref stmt
      saveAndReport (databaseOf s.obj ref) verb affected) s := by
  obtain ⟨verb, hverb⟩ := exec_eq (ι := ι) regex h
  refine ⟨verb, ?_⟩
  rw [hverb, execOnTable, changeTable, bind_assoc]
  rcases resolveDatabase_run s ref with ⟨hok, -⟩ | ⟨e, he⟩
  · rw [bind_ok hok, bind_ok hok]
    rfl
  · rw [bind_error he, bind_error he]

/-- The answer of the end counts the rows. -/
theorem saveAndReport_ok {db : Str} {verb : String} {n : Nat} {res : ExecutionResult}
    {s' : OnDisk ι (Dbms ι)} (h : saveAndReport db verb n s = .ok res s') :
    res.affectedRows = n := by
  obtain ⟨name, t, -, h⟩ := bind_eq_ok.mp h
  obtain ⟨u, t', -, h⟩ := bind_eq_ok.mp h
  injection h with h
  rw [← h]

end Server
/-! ### Results -/

section Results
variable {lost : Lost} {s s' : OnDisk (KeyMap lost) (Dbms (KeyMap lost))} {regex : Regex}
  {stmt : Statement} {ref : TableRef} {res : ExecutionResult} {t : Table (KeyMap lost)}

/-- The table a reference means. -/
def tableOf {ι : Type} [TableIndex ι] (s : Dbms ι) (ref : TableRef) : Option (Table ι) :=
  s.tableAt (databaseOf s ref) ref.table

/-- The end of a statement keeps the tables. -/
theorem saveAndReport_has {db tbl : Str} (ht : t.Opened) (db' : Str) (verb : String) (n : Nat) :
    Keeps (Dbms.Has db tbl t) (saveAndReport (ι := KeyMap lost) db' verb n) := by
  have hname : Keeps (Dbms.Has db tbl t) (databaseName (ι := KeyMap lost) db') := by
    refine Dbms.onDatabase_has ?_ db'
    exact fun _ h => h
  exact keeps_bind hname fun name => keeps_bind (Dbms.saveDatabase_has ht name) fun _ =>
    keeps_pure _

/-- A statement's own work on its table, when the table is there. -/
theorem changeTable_run (regex : Regex) (stmt : Statement) (ht : tableOf s.obj ref = some t) : ∃ d,
    s.obj.databases.lookup (databaseOf s.obj ref) = some d ∧
    ((∃ e, changeTable regex ref stmt s = .error e s) ∨
      (∃ n u, changeRows regex stmt ⟨t, s.fs⟩ = .ok n u ∧
        changeTable regex ref stmt s = .ok n (putTable s (databaseOf s.obj ref) d ref.table u)) ∨
      ∃ e u, changeRows regex stmt ⟨t, s.fs⟩ = .error e u ∧
        changeTable regex ref stmt s = .error e (putTable s (databaseOf s.obj ref) d ref.table u)) := by
  obtain ⟨d, hd, htbl⟩ := Option.bind_eq_some_iff.mp ht
  refine ⟨d, hd, ?_⟩
  rcases resolveDatabase_run s ref with ⟨hok, -⟩ | ⟨e, he⟩
  · right
    cases hrows : changeRows regex stmt ⟨t, s.fs⟩ with
    | ok n u =>
      refine .inl ⟨n, u, rfl, ?_⟩
      rw [changeTable, bind_ok hok, onTableOf_ok hd htbl hrows]
    | error e u =>
      refine .inr ⟨e, u, rfl, ?_⟩
      rw [changeTable, bind_ok hok, onTableOf_error hd htbl hrows]
  · exact .inl ⟨e, by rw [changeTable, bind_error he]⟩

theorem changeTable_missing (regex : Regex) (stmt : Statement) (ht : tableOf s.obj ref = none) : ∃ e s',
    changeTable regex ref stmt s = .error e s' ∧
      ∀ db tbl, s'.obj.tableAt db tbl = s.obj.tableAt db tbl := by
  rcases resolveDatabase_run s ref with ⟨hok, d, hd⟩ | ⟨e, he⟩
  · have htbl : d.tables.lookup ref.table = none := by
      rw [tableOf, Dbms.tableAt, hd] at ht
      exact ht
    rw [changeTable, bind_ok hok]
    exact onTableOf_missing hd htbl
  · exact ⟨e, s, by rw [changeTable, bind_error he], fun _ _ => rfl⟩

/-- An answer that is ok comes from a statement that returned. -/
theorem exec_of_ok (h : execute regex stmt s = .ok res s') (hok : res.ok = true) :
    exec regex stmt s = .ok res s' := by
  rw [execute] at h
  cases hexec : exec regex stmt s with
  | ok r u => rwa [hexec] at h
  | error e u =>
    rw [hexec] at h
    cases e
    case diverges => cases h
    all_goals
      injection h with h
      rw [← h] at hok
      cases hok

/-- A statement whose own work throws answers with the text of what it threw. -/
theorem execute_of_error (href : stmt.target = some ref) {e : Exn}
    (h : changeTable regex ref stmt s = .error e s') (he : e ≠ .diverges) :
    execute regex stmt s = .ok { ok := false, error := e.what } s' := by
  obtain ⟨verb, hexec⟩ := exec_parts (ι := KeyMap lost) regex href s
  rw [execute, hexec, bind_error h]
  cases e
  case diverges => exact absurd rfl he
  all_goals rfl

theorem sound_of_rebound {t' : Table (KeyMap lost)} (h : t.Sound) (hre : t.Rebound t') :
    t'.Sound := by
  obtain ⟨p, rfl⟩ := hre
  exact ⟨⟨rfl, h.fresh, h.agree, h.typed⟩, h.order_nodup, h.mem_order, h.lt_nextId, h.conforming⟩

/-- A statement that changes rows and answers ok did to its table what it means on the
list of rows, and says of how many. -/
theorem execute_rows (href : stmt.target = some ref) (ht : tableOf s.obj ref = some t)
    (hs : t.Sound) (h : execute regex stmt s = .ok res s') (hok : res.ok = true) :
    ∃ t', s'.obj.tableAt (databaseOf s.obj ref) ref.table = some t' ∧ t'.Sound ∧
      t'.name = t.name ∧ t'.schema = t.schema ∧
        (rowList t', res.affectedRows) = (rowList t).apply regex t.schema stmt := by
  obtain ⟨verb, hexec⟩ := exec_parts (ι := KeyMap lost) regex href s
  have hrun := exec_of_ok h hok
  rw [hexec] at hrun
  obtain ⟨n, s₁, hchange, hrest⟩ := bind_eq_ok.mp hrun
  obtain ⟨d, hd, hcases⟩ := changeTable_run regex stmt ht
  rcases hcases with ⟨e, he⟩ | ⟨n', u, hrows, hput⟩ | ⟨e, u, -, he⟩
  · rw [he] at hchange
    cases hchange
  · rw [hput] at hchange
    injection hchange with hn hs₁
    subst hn hs₁
    obtain ⟨hadv, happly⟩ := changeRows_ok hs hrows
    have hhas : Dbms.Has (databaseOf s.obj ref) ref.table u.obj
        (putTable s (databaseOf s.obj ref) d ref.table u) :=
      ⟨u.obj, tableAt_putTable_self .., .refl hadv.sound.opened⟩
    have hkept := saveAndReport_has hadv.sound.opened (databaseOf s.obj ref) verb n' _ hhas
    rw [hrest, stateOf_ok] at hkept
    obtain ⟨t', ht', hre⟩ := hkept
    refine ⟨t', ht', sound_of_rebound hadv.sound hre, ?_⟩
    rw [saveAndReport_ok hrest, ← happly]
    obtain ⟨p, rfl⟩ := hre
    exact ⟨hadv.name, hadv.schema, rfl⟩
  · rw [he] at hchange
    cases hchange

/-- A statement that changes rows and fails by its own doing, other than with an
over-long key, leaves every other table as it was. Of its own table the rows before the
one it stopped at are done, and nothing else; a DELETE leaves it as it was. -/
theorem execute_stopped (href : stmt.target = some ref)
    (hs : ∀ t, tableOf s.obj ref = some t → t.Sound) (h : execute regex stmt s = .ok res s')
    (hcause : returned (changeTable regex ref stmt s) = false)
    (hlong : res.error ≠ keyTooLarge.what) :
    res.ok = false ∧
    (∀ db tbl, (db, tbl) ≠ (databaseOf s.obj ref, ref.table) ∨ tableOf s.obj ref = none →
      s'.obj.tableAt db tbl = s.obj.tableAt db tbl) ∧
    ∀ t, tableOf s.obj ref = some t → ∃ t' e,
      s'.obj.tableAt (databaseOf s.obj ref) ref.table = some t' ∧ res.error = e.what ∧
      t'.Sound ∧ (t' = t ∨ StopsAt regex stmt e ⟨t, s.fs⟩ ⟨t', s'.fs⟩) ∧
        (rowList t).Stopped regex t.schema stmt (rowList t') ∧
          ((∃ st, stmt = .delete st) → t' = t) := by
  cases hchange : changeTable regex ref stmt s with
  | ok n s₁ =>
    rw [hchange] at hcause
    cases hcause
  | error e s₁ =>
    have hdiv : e ≠ .diverges := by
      rintro rfl
      obtain ⟨verb, hexec⟩ := exec_parts (ι := KeyMap lost) regex href s
      rw [execute, hexec, bind_error hchange] at h
      cases h
    rw [execute_of_error href hchange hdiv] at h
    injection h with hres hs₁
    subst hres hs₁
    have he : e ≠ keyTooLarge := fun he => hlong (congrArg Exn.what he)
    refine ⟨rfl, ?_⟩
    cases ht : tableOf s.obj ref with
    | none =>
      obtain ⟨e', s'', hmissing, hsame⟩ := changeTable_missing regex stmt ht
      rw [hchange] at hmissing
      injection hmissing with _ hs'
      subst hs'
      exact ⟨fun db tbl _ => hsame db tbl, fun t ht => by cases ht⟩
    | some t =>
      obtain ⟨d, hd, hcases⟩ := changeTable_run regex stmt ht
      rcases hcases with ⟨e', he'⟩ | ⟨n, u, -, hput⟩ | ⟨e', u, hrows, hput⟩
      · rw [hchange] at he'
        injection he' with _ hs'
        subst hs'
        refine ⟨fun _ _ _ => rfl, ?_⟩
        rintro t' ⟨rfl⟩
        exact ⟨t, e, ht, rfl, hs t ht, .inl rfl, .before stmt, fun _ => rfl⟩
      · rw [hchange] at hput
        cases hput
      · rw [hchange] at hput
        injection hput with hee hs'
        subst hee hs'
        obtain ⟨hadv, hstop, hrows, hdel⟩ := changeRows_error (hs t ht) hrows he
        refine ⟨fun db tbl hne => ?_, ?_⟩
        · rcases hne with hne | hne
          · exact tableAt_putTable_ne hd hne u
          · cases hne
        · rintro t' ⟨rfl⟩
          refine ⟨u.obj, e, tableAt_putTable_self .., rfl, hadv.sound, ?_, hrows, ?_⟩
          · exact hstop.imp (congrArg OnDisk.obj) id
          · exact fun hst => congrArg OnDisk.obj (hdel hst)

end Results

/-! ### A server with one table -/

section OneTable

def dbName : Str := Str.ofString "d"
def tableName : Str := Str.ofString "t"
def columnName : Str := Str.ofString "k"

/-- No pattern matches. -/
def noMatch : Regex := fun _ _ => .ok false

/-- The server with one database, which is selected, of one table. -/
def oneTable (s : OnDisk (KeyMap .nowhere) (Table (KeyMap .nowhere))) :
    OnDisk (KeyMap .nowhere) (Dbms (KeyMap .nowhere)) :=
  ⟨{ databases := (∅ : AList fun _ : Str => Database (KeyMap .nowhere)).insert dbName
       { name := dbName
         tables := (∅ : AList fun _ : Str => Table (KeyMap .nowhere)).insert tableName s.obj
         storageDir := some dbName }
     active := dbName }, s.fs⟩

theorem tableOf_oneTable (s : OnDisk (KeyMap .nowhere) (Table (KeyMap .nowhere))) :
    tableOf (oneTable s).obj { table := tableName } = some s.obj := by
  rw [tableOf, Dbms.tableAt, databaseOf, if_neg (by simp), oneTable, AList.lookup_insert]
  exact AList.lookup_insert _

/-- There is no other table. -/
theorem tableAt_oneTable {s : OnDisk (KeyMap .nowhere) (Table (KeyMap .nowhere))} {db tbl : Str}
    {t : Table (KeyMap .nowhere)} (h : (oneTable s).obj.tableAt db tbl = some t) : t = s.obj := by
  rw [oneTable, Dbms.tableAt] at h
  by_cases hdb : db = dbName
  · subst hdb
    rw [AList.lookup_insert, Option.bind_some] at h
    by_cases htbl : tbl = tableName
    · subst htbl
      rw [AList.lookup_insert] at h
      injection h with h
      exact h.symm
    · rw [AList.lookup_insert_ne htbl] at h
      cases h
  · rw [AList.lookup_insert_ne hdb] at h
    cases h

def raiseKey : Statement :=
  .update { table := { table := tableName }
            assignments := [(columnName, .literal (.int 7))]
            where? := some (.compare .gt (.columnRef columnName) (.literal (.int 4))) }

/-- The row found through the index of the column that is assigned is assigned once. -/
theorem execute_rows_update : ∃ res s' t',
    execute noMatch raiseKey (oneTable Table.oneRowTable) = .ok res s' ∧
    s'.obj.tableAt dbName tableName = some t' ∧ t'.Sound ∧
      (rowList t', res.affectedRows) = (⟨[(1, ⟨[.int 7]⟩)], 2⟩, 1) := by
  have hok : (match execute noMatch raiseKey (oneTable Table.oneRowTable) with
      | .ok res _ => res.ok
      | .error _ _ => false) = true := by decide +kernel
  cases h : execute noMatch raiseKey (oneTable Table.oneRowTable) with
  | error e s' =>
    rw [h] at hok
    cases hok
  | ok res s' =>
    rw [h] at hok
    obtain ⟨t', ht', hsound, -, -, hrows⟩ := execute_rows rfl (tableOf_oneTable _)
      Table.oneRowTable_sound h hok
    exact ⟨res, s', t', rfl, ht', hsound, hrows.trans (by decide +kernel)⟩

/-- The second VALUE row has one value too many. -/
def insertUneven : Statement :=
  .insert { table := { table := tableName }, columns := [], rows := [[.int 1], [.int 2, .int 3]] }

theorem execute_stopped_insert : ∃ res s' t',
    execute noMatch insertUneven (oneTable (Table.oneColumnTable .int)) = .ok res s' ∧
    res.ok = false ∧ s'.obj.tableAt dbName tableName = some t' ∧ t'.Sound ∧
      (rowList (Table.oneColumnTable .int).obj).Stopped noMatch (Table.oneColumn .int) insertUneven
        (rowList t') := by
  have hfails : (match execute noMatch insertUneven (oneTable (Table.oneColumnTable .int)) with
      | .ok res _ => decide (res.error ≠ keyTooLarge.what)
      | .error _ _ => false) = true := by decide +kernel
  cases h : execute noMatch insertUneven (oneTable (Table.oneColumnTable .int)) with
  | error e s' =>
    rw [h] at hfails
    cases hfails
  | ok res s' =>
    rw [h] at hfails
    have hsound : ∀ t, tableOf (oneTable (Table.oneColumnTable .int)).obj { table := tableName } =
        some t → t.Sound := by
      intro t ht
      rw [tableOf_oneTable] at ht
      injection ht with ht
      exact ht ▸ Table.emptyTable_sound ..
    obtain ⟨hok, -, htable⟩ := execute_stopped rfl hsound h (by decide +kernel)
      (of_decide_eq_true hfails)
    obtain ⟨t', e, ht', -, hsound', -, hstopped, -⟩ := htable _ (tableOf_oneTable _)
    exact ⟨res, s', t', rfl, hok, ht', hsound', hstopped⟩

/-- Both VALUE rows have the same key. -/
def insertTwice : Statement :=
  .insert { table := { table := tableName }, columns := [], rows := [[.int 1], [.int 1]] }

/-- The first row of an INSERT whose second row is refused stays in the table. -/
theorem not_execute_atomic : ¬ ∀ (lost : Lost) (regex : Regex) (stmt : Statement) (ref : TableRef)
    (s s' : OnDisk (KeyMap lost) (Dbms (KeyMap lost))) (res : ExecutionResult),
    stmt.target = some ref → (∀ db tbl t, s.obj.tableAt db tbl = some t → t.Sound) →
    execute regex stmt s = .ok res s' → res.ok = false →
    returned (changeTable regex ref stmt s) = false →
      ∀ db tbl t, s.obj.tableAt db tbl = some t →
        ∃ t', s'.obj.tableAt db tbl = some t' ∧ t.SameContents t' := by
  intro hall
  have hfails : (match execute noMatch insertTwice (oneTable (Table.oneColumnTable .int)) with
      | .ok res s' => !res.ok && decide ((s'.obj.tableAt dbName tableName).map Table.order = some [1])
      | .error _ _ => false) = true := by decide +kernel
  cases h : execute noMatch insertTwice (oneTable (Table.oneColumnTable .int)) with
  | error e s' =>
    rw [h] at hfails
    cases hfails
  | ok res s' =>
    rw [h, Bool.and_eq_true, decide_eq_true_eq] at hfails
    have hsound : ∀ db tbl t, (oneTable (Table.oneColumnTable .int)).obj.tableAt db tbl = some t →
        t.Sound := by
      intro db tbl t ht
      rw [tableAt_oneTable ht]
      exact Table.emptyTable_sound ..
    obtain ⟨t', ht', hsame⟩ := hall .nowhere noMatch insertTwice { table := tableName } _ s' res rfl
      hsound h (by simpa using hfails.1) (by decide +kernel) dbName tableName _ (tableOf_oneTable _)
    rw [ht'] at hfails
    have horder : t'.order = [1] := by simpa using hfails.2
    rw [hsame.order] at horder
    cases horder

end OneTable
end CwDb.Sql
