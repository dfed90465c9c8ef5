import CwDb.Sql.Ast
import CwDb.Storage.Table

/-! WHERE: its evaluation on a row, and the rows an index proposes for it.

A condition is true, false or unknown. `triAnd` is not quite the conjunction of
Kleene's logic: unknown and false is unknown. `deriveIndexHint` looks through the
ANDs at the top of a condition for clauses that bound one indexed column; the rows
it leads to are filtered by the condition afterwards.

`std::regex` is a parameter: `Regex` says of a pattern and a text whether the
whole text matches, or what is wrong with the pattern. -/
namespace CwDb.Sql
open Foundation Storage

/-- `std::regex_match` of a pattern and a text. -/
abbrev Regex := Str → Str → Except String Bool

/-! ### Evaluation -/

def toBoolThreeValued (compareResult : Int) : CompareOp → Bool
  | .eq => compareResult = 0
  | .notEq => compareResult ≠ 0
  | .lt => compareResult < 0
  | .gt => compareResult > 0
  | .ltEq => compareResult ≤ 0
  | .gtEq => compareResult ≥ 0

structure TriBool where
  value : Bool := false
  unknown : Bool := false
  deriving DecidableEq, Repr

def triOr (a b : TriBool) : TriBool :=
  if a.value || b.value then ⟨true, false⟩
  else if a.unknown || b.unknown then ⟨false, true⟩
  else ⟨false, false⟩

def triAnd (a b : TriBool) : TriBool :=
  if a.unknown && !b.value then ⟨false, !b.value⟩
  else if b.unknown && !a.value then ⟨false, true⟩
  else if !a.value || !b.value then
    if a.value && b.unknown then ⟨false, true⟩
    else if b.value && a.unknown then ⟨false, true⟩
    else ⟨false, false⟩
  else ⟨true, false⟩

section Evaluation
variable {ι : Type} (regex : Regex) (table : Table ι) (row : Record)

def evalAtom [TableIndex ι] : Expr → Except Exn Value
  | .literal v => .ok v
  | .columnRef column => do
    let idx ← table.requireColumn column
    return row.value idx
  | _ => .error (.runtimeError "invalid expression in atom position")

def evalWhere [TableIndex ι] : Expr → Except Exn TriBool
  | .compare op lhs rhs => do
    let lhs ← evalAtom table row lhs
    let rhs ← evalAtom table row rhs
    let (r, valid) := lhs.compare rhs
    return if !valid then ⟨false, true⟩ else ⟨toBoolThreeValued r op, false⟩
  | .between value lo hi => do
    let v ← evalAtom table row value
    let lo ← evalAtom table row lo
    let hi ← evalAtom table row hi
    let (c1, valid1) := v.compare lo
    let (c2, valid2) := v.compare hi
    return if !valid1 || !valid2 then ⟨false, true⟩ else ⟨c1 ≥ 0 && c2 ≤ 0, false⟩
  | .like value pattern => do
    let v ← evalAtom table row value
    let pat ← evalAtom table row pattern
    if v.isNull || pat.isNull then return ⟨false, true⟩
    else
      match v, pat with
      | .str v, .str pat =>
        match regex pat v with
        | .ok matched => return ⟨matched, false⟩
        | .error what => .error (.runtimeError ("Bad regex in LIKE: " ++ what))
      | _, _ => .error (.runtimeError "LIKE expects string operands")
  | .logical op lhs rhs => do
    let a ← evalWhere lhs
    let b ← evalWhere rhs
    return match op with
      | .and => triAnd a b
      | .or => triOr a b
  | .literal _ => .error (.runtimeError "standalone literal not allowed in WHERE")
  | .columnRef _ => .error (.runtimeError "standalone column reference not allowed in WHERE")

/-- Whether a row is selected; an absent condition selects all. -/
def selected [TableIndex ι] (cond : Option Expr) : Except Exn Bool :=
  match cond with
  | none => .ok true
  | some w => do
    let t ← evalWhere regex table row w
    return t.value && !t.unknown

end Evaluation

/-! ### Hints -/

structure IndexHint where
  has : Bool := false
  columnIdx : Nat := 0
  eq : Bool := false
  eqValue : Value := .null
  hasLo : Bool := false
  lo : Value := .null
  loInclusive : Bool := false
  hasHi : Bool := false
  hi : Value := .null
  hiInclusive : Bool := false
  deriving DecidableEq, Repr

def isColumnNamed (e : Expr) (col : Str) : Bool :=
  match e with
  | .columnRef c => c == col
  | _ => false

def asLiteral : Expr → Option Value
  | .literal v => some v
  | _ => none

/-- The clauses of the ANDs at the top, from left to right. -/
def clausesOf : Expr → List Expr
  | .logical .and lhs rhs => clausesOf lhs ++ clausesOf rhs
  | e => [e]

/-- `lit op col` as a comparison of the column. -/
def CompareOp.swap : CompareOp → CompareOp
  | .lt => .gt
  | .gt => .lt
  | .ltEq => .gtEq
  | .gtEq => .ltEq
  | op => op

/-- A comparison of a column with a literal of its type, the column put first. -/
def columnComparison (col : ColumnDef) (op : CompareOp) (lhs rhs : Expr) :
    Option (CompareOp × Value) :=
  let found :=
    match isColumnNamed lhs col.name, asLiteral rhs with
    | true, some v => some (op, v)
    | _, _ =>
      match isColumnNamed rhs col.name, asLiteral lhs with
      | true, some v => some (op.swap, v)
      | _, _ => none
  match found with
  | some (op, v) => if v.matchesType col.type then some (op, v) else none
  | none => none

/-- What a comparison adds; a bound set before is overwritten. -/
def IndexHint.restrict (cand : IndexHint) : CompareOp → Value → IndexHint
  | .eq, v => { cand with eq := true, eqValue := v }
  | .lt, v => { cand with hasHi := true, hi := v, hiInclusive := false }
  | .ltEq, v => { cand with hasHi := true, hi := v, hiInclusive := true }
  | .gt, v => { cand with hasLo := true, lo := v, loInclusive := false }
  | .gtEq, v => { cand with hasLo := true, lo := v, loInclusive := true }
  | .notEq, _ => cand

def hintClause (col : ColumnDef) (cand : IndexHint) : Expr → IndexHint
  | .compare op lhs rhs =>
    match columnComparison col op lhs rhs with
    | some (op, v) => cand.restrict op v
    | none => cand
  | .between value lo hi =>
    if !isColumnNamed value col.name then cand
    else
      match asLiteral lo, asLiteral hi with
      | some lo, some hi =>
        { cand with hasLo := true, lo, loInclusive := true, hasHi := true, hi, hiInclusive := true }
      | _, _ => cand
  | _ => cand

section Hints
variable {ι : Type} [TableIndex ι]

/-- The first column of the list that the clauses bound. -/
def hintColumns (t : Table ι) (clauses : List Expr) : List ColumnDef → IndexHint
  | [] => {}
  | col :: cols =>
    match t.schema.indexOf col.name with
    | none => hintColumns t clauses cols
    | some colIdx =>
      if !t.columnIsIndexed colIdx then hintColumns t clauses cols
      else
        let cand := clauses.foldl (hintClause col) { columnIdx := colIdx }
        if cand.eq || cand.hasLo || cand.hasHi then { cand with has := true }
        else hintColumns t clauses cols

def deriveIndexHint (cond : Option Expr) (t : Table ι) : IndexHint :=
  match cond with
  | none => {}
  | some w => hintColumns t (clausesOf w) t.schema.columns

open DiskM in
def selectCandidates (cond : Option Expr) : TableM ι (List RecordId) := do
  let t ← getObj
  let hint := deriveIndexHint cond t
  if !hint.has then return t.order
  else if !t.columnIsIndexed hint.columnIdx then return t.order
  else if hint.eq then
    let found ← Table.indexFind hint.columnIdx hint.eqValue
    return found.toList
  else
    Table.indexCollectRange hint.columnIdx (if hint.hasLo then some hint.lo else none)
      hint.loInclusive (if hint.hasHi then some hint.hi else none) hint.hiInclusive

/-- The candidates the condition is true of, in their order. -/
def matchLoop (regex : Regex) (t : Table ι) (cond : Option Expr) :
    List RecordId → Except Exn (List RecordId)
  | [] => .ok []
  | id :: ids =>
    match t.records id with
    | none => .error (.outOfRange "unordered_map::at")
    | some r => do
      let keep ← selected regex t r cond
      let rest ← matchLoop regex t cond ids
      return if keep then id :: rest else rest

open DiskM in
/-- The loop before the rows are changed, in `exec_update` and `exec_delete`. -/
def matchedRows (regex : Regex) (cond : Option Expr) : TableM ι (List RecordId) := do
  let candidates ← selectCandidates cond
  let t ← getObj
  fromExcept (matchLoop regex t cond candidates)

end Hints
end CwDb.Sql
