import CwDb.Sql.Schema

/-! Statements.

Expressions keep the source's shape: any expression may stand where the parser
only puts an atom, and the evaluation rejects it there. -/
namespace CwDb.Sql

structure TableRef where
  /-- Empty: the active database. -/
  database : Str := []
  table : Str := []
  deriving DecidableEq, Repr

inductive CompareOp where
  | eq
  | notEq
  | lt
  | gt
  | ltEq
  | gtEq
  deriving DecidableEq, Repr

inductive LogicalOp where
  | and
  | or
  deriving DecidableEq, Repr

inductive Expr where
  | columnRef (column : Str)
  | literal (v : Value)
  | compare (op : CompareOp) (lhs rhs : Expr)
  | between (value lo hi : Expr)
  | like (value pattern : Expr)
  | logical (op : LogicalOp) (lhs rhs : Expr)
  deriving DecidableEq, Repr

inductive AggregateFn where
  | none
  | sum
  | count
  | avg
  deriving DecidableEq, Repr

structure SelectItem where
  isStar : Bool := false
  agg : AggregateFn := .none
  /-- COUNT of the rows. -/
  aggStar : Bool := false
  column : Str := []
  aliasName : Str := []
  deriving DecidableEq, Repr

structure CreateTableStmt where
  table : TableRef
  columns : List ColumnDef

structure InsertStmt where
  table : TableRef
  /-- Empty: all columns. -/
  columns : List Str
  rows : List (List Value)

structure UpdateStmt where
  table : TableRef
  assignments : List (Str × Expr)
  where? : Option Expr

structure DeleteStmt where
  table : TableRef
  where? : Option Expr

structure SelectStmt where
  table : TableRef
  items : List SelectItem
  where? : Option Expr

inductive Statement where
  | createDatabase (name : Str)
  | dropDatabase (name : Str)
  | use (name : Str)
  | createTable (s : CreateTableStmt)
  | dropTable (table : TableRef)
  | insert (s : InsertStmt)
  | update (s : UpdateStmt)
  | delete (s : DeleteStmt)
  | select (s : SelectStmt)

end CwDb.Sql
