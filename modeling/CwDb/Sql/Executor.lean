import CwDb.Sql.Where
import CwDb.Core.Dbms

/-! Statements, executed.

A statement that changes rows finds its database and table, changes row after row,
and saves the database at the end. `execute` turns a throw on the way into a result
that is not ok; the rows changed before it stay changed.

A SELECT gives its rows as values under labels, not as JSON text. The sums are
floating-point numbers in the code: here a sum or an average is the list of its terms. -/
namespace CwDb.Sql
open Foundation Storage DiskM

/-- The value of an aggregate, a sum and an average by their terms in order. -/
inductive Aggregate where
  | null
  | count (n : Nat)
  | sum (terms : List Int64)
  | avg (terms : List Int64)
  deriving DecidableEq, Repr

/-- What a statement answers. -/
inductive Output where
  | text (s : String)
  | rows (rows : List (List (Str × Value)))
  | aggregates (row : List (Str × Aggregate))
  deriving DecidableEq, Repr

structure ExecutionResult where
  ok : Bool := true
  output : Output := .text ""
  error : String := ""
  affectedRows : Nat := 0
  deriving DecidableEq, Repr

variable {ι : Type} [TableIndex ι]

def resolveDatabase (ref : TableRef) : DbmsM ι Str :=
  if ref.database ≠ [] then Dbms.requireDatabase ref.database
  else Dbms.activeOrThrow

/-- Work on the table of a reference, in a database that was found. -/
def onTableOf {α : Type} (db : Str) (ref : TableRef) (x : TableM ι α) : DbmsM ι α :=
  Dbms.onDatabase db do
    let _ ← Database.requireTable ref.table
    Database.onTable ref.table x

/-- `db.name()`. -/
def databaseName (db : Str) : DbmsM ι Str :=
  Dbms.onDatabase db do
    let d ← getObj
    return d.name

def execCreateDatabase (name : Str) : DbmsM ι ExecutionResult := do
  Dbms.createDatabase name
  Dbms.saveDatabase name
  return { output := .text ("Database created: " ++ name.text) }

def execDropDatabase (name : Str) : DbmsM ι ExecutionResult := do
  Dbms.dropDatabase name
  return { output := .text ("Database dropped: " ++ name.text) }

def execUse (name : Str) : DbmsM ι ExecutionResult := do
  Dbms.useDatabase name
  return { output := .text ("Active database: " ++ name.text) }

def checkColumnNames : List ColumnDef → List Str → Except Exn Unit
  | [], _ => .ok ()
  | c :: cs, seen =>
    if seen.contains c.name then
      .error (.runtimeError ("Duplicate column name '" ++ c.name.text ++ "'"))
    else checkColumnNames cs (c.name :: seen)

def execCreateTable (s : CreateTableStmt) : DbmsM ι ExecutionResult := do
  let db ← resolveDatabase s.table
  fromExcept (checkColumnNames s.columns [])
  Dbms.onDatabase db (Database.createTable s.table.table { columns := s.columns })
  let name ← databaseName db
  Dbms.saveDatabase name
  return { output := .text ("Table created: " ++ name.text ++ "." ++ s.table.table.text) }

def execDropTable (ref : TableRef) : DbmsM ι ExecutionResult := do
  let db ← resolveDatabase ref
  Dbms.onDatabase db (Database.dropTable ref.table)
  let name ← databaseName db
  Dbms.saveDatabase name
  return { output := .text ("Table dropped: " ++ name.text ++ "." ++ ref.table.text) }

/-! ### INSERT -/

def columnPositions (t : Table ι) : List Str → Except Exn (List Nat)
  | [] => .ok []
  | name :: names => do
    let pos ← t.requireColumn name
    let rest ← columnPositions t names
    return pos :: rest

/-- No columns listed means all of them. -/
def insertPositions (t : Table ι) (columns : List Str) : Except Exn (List Nat) :=
  if columns = [] then .ok (List.range t.schema.columns.length)
  else columnPositions t columns

def insertRow (positions : List Nat) (row : List Value) : TableM ι Unit :=
  if row.length ≠ positions.length then
    throw (.runtimeError "INSERT: value count does not match column count")
  else do
    let t ← getObj
    let record ← fromExcept (t.materialize positions row)
    let _ ← Table.insert record
    return

def insertRows (positions : List Nat) : List (List Value) → TableM ι Unit
  | [] => return
  | row :: rows => do
    insertRow positions row
    insertRows positions rows

def insertAll (columns : List Str) (rows : List (List Value)) : TableM ι Nat := do
  let t ← getObj
  let positions ← fromExcept (insertPositions t columns)
  insertRows positions rows
  return rows.length

/-! ### UPDATE -/

def assignmentColumns (t : Table ι) : List (Str × Expr) → Except Exn (List (Nat × Expr))
  | [] => .ok []
  | (name, expr) :: rest => do
    let idx ← t.requireColumn name
    let rest ← assignmentColumns t rest
    return (idx, expr) :: rest

/-- The SET expressions, evaluated on a row. -/
def evalAssignments (t : Table ι) (r : Record) : List (Nat × Expr) →
    Except Exn (List (Nat × Value))
  | [] => .ok []
  | (idx, expr) :: rest => do
    let v ← evalAtom t r expr
    let rest ← evalAssignments t r rest
    return (idx, v) :: rest

def updateRow (assignments : List (Nat × Expr)) (id : RecordId) : TableM ι Unit := do
  let t ← getObj
  match t.records id with
  | none => throw (.outOfRange "unordered_map::at")
  | some r =>
    let assigns ← fromExcept (evalAssignments t r assignments)
    Table.update id assigns

def updateRows (assignments : List (Nat × Expr)) : List RecordId → TableM ι Unit
  | [] => return
  | id :: ids => do
    updateRow assignments id
    updateRows assignments ids

def updateAll (regex : Regex) (assignments : List (Str × Expr)) (cond : Option Expr) :
    TableM ι Nat := do
  let t ← getObj
  let assignmentsIdx ← fromExcept (assignmentColumns t assignments)
  let matched ← matchedRows regex cond
  updateRows assignmentsIdx matched
  return matched.length

/-! ### DELETE -/

def deleteRows : List RecordId → TableM ι Unit
  | [] => return
  | id :: ids => do
    Table.erase id
    deleteRows ids

def deleteAll (regex : Regex) (cond : Option Expr) : TableM ι Nat := do
  let matched ← matchedRows regex cond
  deleteRows matched
  return matched.length

/-! ### SELECT -/

inductive ItemKind where
  | plain
  | aggStar
  | agg
  deriving DecidableEq, Repr

structure ResolvedItem where
  kind : ItemKind
  columnIdx : Nat := 0
  agg : AggregateFn := .none
  label : Str := []
  deriving DecidableEq, Repr

def aggregateName : AggregateFn → String
  | .sum => "SUM"
  | .count => "COUNT"
  | _ => "AVG"

def resolveItem (t : Table ι) (it : SelectItem) : Except Exn ResolvedItem :=
  if it.agg ≠ .none then do
    let columnIdx ← if it.aggStar then .ok 0 else t.requireColumn it.column
    let label := if it.aliasName = [] then
        Str.ofString (aggregateName it.agg ++ "(") ++
          (if it.aggStar then Str.ofString "*" else it.column) ++ Str.ofString ")"
      else it.aliasName
    return { kind := if it.aggStar then .aggStar else .agg, columnIdx, agg := it.agg, label }
  else if it.isStar then .error (.runtimeError "'*' may only appear by itself in SELECT")
  else do
    let columnIdx ← t.requireColumn it.column
    return { kind := .plain, columnIdx, label := if it.aliasName = [] then it.column else it.aliasName }

def resolveItems (t : Table ι) : List SelectItem → Except Exn (List ResolvedItem)
  | [] => .ok []
  | it :: its => do
    let r ← resolveItem t it
    let rs ← resolveItems t its
    return r :: rs

def isStarItem : List SelectItem → Bool
  | [it] => it.isStar
  | _ => false

/-- The projection, and whether it aggregates. -/
def projection (t : Table ι) (items : List SelectItem) : Except Exn (List ResolvedItem × Bool) :=
  if isStarItem items then
    .ok (t.schema.columns.mapIdx fun i c => { kind := .plain, columnIdx := i, label := c.name }, false)
  else do
    let rs ← resolveItems t items
    let anyAgg := rs.any fun r => r.kind ≠ .plain
    let anyNonAgg := rs.any fun r => r.kind = .plain
    if anyAgg && anyNonAgg then
      .error (.runtimeError "Cannot mix aggregates with plain columns without GROUP BY")
    else return (rs, anyAgg)

/-- What an item has counted, and the terms of its sum. -/
structure Accumulator where
  count : Nat := 0
  terms : List Int64 := []
  deriving DecidableEq, Repr

def Accumulator.counted (acc : Accumulator) : Accumulator := { acc with count := acc.count + 1 }

/-- An aggregate over a column takes integers only, COUNT anything but NULL. -/
def accumulateItem (t : Table ι) (r : Record) (it : ResolvedItem) (acc : Accumulator) :
    Except Exn Accumulator :=
  if it.kind = .aggStar then .ok acc.counted
  else
    match r.value it.columnIdx with
    | .null => .ok acc
    | .int i =>
      if it.agg = .count then .ok acc.counted
      else .ok { count := acc.count + 1, terms := acc.terms ++ [i] }
    | .str _ =>
      if it.agg = .count then .ok acc.counted
      else .error (.runtimeError
        ("Aggregate requires int column '" ++ (t.columnName it.columnIdx).text ++ "'"))

def accumulate (t : Table ι) (r : Record) :
    List (ResolvedItem × Accumulator) → Except Exn (List (ResolvedItem × Accumulator))
  | [] => .ok []
  | (it, acc) :: rest => do
    let acc ← accumulateItem t r it acc
    let rest ← accumulate t r rest
    return (it, acc) :: rest

/-- The rows of the candidates the condition is true of, one after the other. -/
def aggregateLoop (regex : Regex) (t : Table ι) (cond : Option Expr) :
    List RecordId → List (ResolvedItem × Accumulator) →
      Except Exn (List (ResolvedItem × Accumulator))
  | [], items => .ok items
  | id :: ids, items =>
    match t.records id with
    | none => .error (.outOfRange "unordered_map::at")
    | some r => do
      if ← selected regex t r cond then
        let items ← accumulate t r items
        aggregateLoop regex t cond ids items
      else aggregateLoop regex t cond ids items

/-- A sum or an average of nothing is NULL. -/
def aggregateOf (it : ResolvedItem) (acc : Accumulator) : Aggregate :=
  match it.agg with
  | .count => .count acc.count
  | .sum => if acc.terms.isEmpty then .null else .sum acc.terms
  | _ => if acc.terms.isEmpty then .null else .avg acc.terms

/-- The rows of the candidates the condition is true of; `row` is what is made of one. -/
def selectLoop {β : Type} (regex : Regex) (t : Table ι) (cond : Option Expr)
    (row : Record → Except Exn β) : List RecordId → Except Exn (List β)
  | [] => .ok []
  | id :: ids =>
    match t.records id with
    | none => .error (.outOfRange "unordered_map::at")
    | some r => do
      if ← selected regex t r cond then
        let b ← row r
        let rest ← selectLoop regex t cond row ids
        return b :: rest
      else selectLoop regex t cond row ids

def selectAll (regex : Regex) (items : List SelectItem) (cond : Option Expr) :
    TableM ι ExecutionResult := do
  let t ← getObj
  let (items, anyAgg) ← fromExcept (projection t items)
  let candidates ← selectCandidates cond
  let t ← getObj
  if anyAgg then
    let totals ← fromExcept (aggregateLoop regex t cond candidates (items.map fun it => (it, {})))
    let row := totals.map fun item => (item.1.label, aggregateOf item.1 item.2)
    return { output := .aggregates row, affectedRows := 1 }
  else
    let rows ← fromExcept (selectLoop regex t cond
      (fun r => .ok (items.map fun it => (it.label, r.value it.columnIdx))) candidates)
    return { output := .rows rows, affectedRows := rows.length }

/-! ### The statements on rows -/

/-- `what` counts the rows of a table's statement; the database is saved after it. -/
def execOnTable (ref : TableRef) (verb : String) (x : TableM ι Nat) : DbmsM ι ExecutionResult := do
  let db ← resolveDatabase ref
  let affected ← onTableOf db ref x
  let name ← databaseName db
  Dbms.saveDatabase name
  return { output := .text (verb ++ " " ++ toString affected ++ " row(s)"), affectedRows := affected }

def execInsert (s : InsertStmt) : DbmsM ι ExecutionResult :=
  execOnTable s.table "Inserted" (insertAll s.columns s.rows)

def execUpdate (regex : Regex) (s : UpdateStmt) : DbmsM ι ExecutionResult :=
  execOnTable s.table "Updated" (updateAll regex s.assignments s.where?)

def execDelete (regex : Regex) (s : DeleteStmt) : DbmsM ι ExecutionResult :=
  execOnTable s.table "Deleted" (deleteAll regex s.where?)

def execSelect (regex : Regex) (s : SelectStmt) : DbmsM ι ExecutionResult := do
  let db ← resolveDatabase s.table
  onTableOf db s.table (selectAll regex s.items s.where?)

def exec (regex : Regex) : Statement → DbmsM ι ExecutionResult
  | .createDatabase name => execCreateDatabase name
  | .dropDatabase name => execDropDatabase name
  | .use name => execUse name
  | .createTable s => execCreateTable s
  | .dropTable ref => execDropTable ref
  | .insert s => execInsert s
  | .update s => execUpdate regex s
  | .delete s => execDelete regex s
  | .select s => execSelect regex s

/-- A throw becomes an answer; a statement that never ends has none. -/
def execute (regex : Regex) (stmt : Statement) : DbmsM ι ExecutionResult := fun s =>
  match exec regex stmt s with
  | .error .diverges t => .error .diverges t
  | .error e t => .ok { ok := false, error := e.what } t
  | .ok r t => .ok r t

end CwDb.Sql
