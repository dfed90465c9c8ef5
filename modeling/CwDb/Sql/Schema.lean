import CwDb.Core.Value

/-! Table schemas. -/
namespace CwDb

structure ColumnDef where
  name : Str := []
  type : DataType := .int
  notNull : Bool := false
  /-- Unique and not NULL. -/
  indexed : Bool := false
  hasDefault : Bool := false
  defaultValue : Value := .null
  deriving DecidableEq, Repr

structure TableSchema where
  columns : List ColumnDef := []
  deriving DecidableEq, Repr

namespace TableSchema

/-- The first column of a name; the source returns -1 where there is none. -/
def indexOf (s : TableSchema) (name : Str) : Option Nat :=
  s.columns.findIdx? fun c => c.name == name

/-- The columns with an index, from left to right: what the loops that skip the
others visit. -/
def indexedColumns (s : TableSchema) : List Nat :=
  (List.range s.columns.length).filter fun i =>
    match s.columns[i]? with
    | some c => c.indexed
    | none => false

theorem mem_indexedColumns {s : TableSchema} {i : Nat} :
    i ∈ s.indexedColumns ↔ ∃ c, s.columns[i]? = some c ∧ c.indexed = true := by
  rw [indexedColumns, List.mem_filter, List.mem_range]
  constructor
  · rintro ⟨hi, hc⟩
    rw [List.getElem?_eq_getElem hi] at hc
    exact ⟨_, List.getElem?_eq_getElem hi, hc⟩
  · rintro ⟨c, hc, hidx⟩
    refine ⟨(List.getElem?_eq_some_iff.mp hc).1, ?_⟩
    rw [hc]
    exact hidx

theorem indexedColumns_nodup (s : TableSchema) : s.indexedColumns.Nodup :=
  List.nodup_range.filter _

end TableSchema
end CwDb
