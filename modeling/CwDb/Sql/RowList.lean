import CwDb.Sql.Selection
import CwDb.Sql.Executor

/-! Tables as lists of rows.

`RowList.apply` says what INSERT, UPDATE and DELETE mean on a list of rows with
their ids, with no index in sight. The lemmas here connect its parts to what the
statements compute with: a column list and a VALUE row to the record that
`materialize` builds, the SET expressions to the record after its assignments. -/
namespace CwDb.Sql
open Foundation Storage

/-- The rows of a table in order, and the id the next one will have. -/
structure RowList where
  rows : List (RecordId × Record)
  nextId : RecordId
  deriving DecidableEq, Repr

def rowList {ι : Type} (t : Table ι) : RowList where
  rows := t.order.filterMap fun id => (t.records id).map fun r => (id, r)
  nextId := t.nextId

/-! ### The meaning of the statements -/

section Meaning
variable (regex : Regex) (schema : TableSchema)

/-- Whether the condition of a statement is true of a row. -/
def holds (cond : Option Expr) (r : Record) : Bool :=
  match cond with
  | none => true
  | some w => truthOf regex schema r w = some .true

/-- The value a VALUE row lists for a column; no columns listed means all of them. -/
def listedValue (columns : List Str) (row : List Value) (i : Nat) : Option Value :=
  if columns = [] then row[i]?
  else ((columns.zip row).find? fun p => schema.indexOf p.1 = some i).map Prod.snd

def insertedRow (columns : List Str) (row : List Value) : Record where
  values := schema.columns.mapIdx fun i c =>
    (listedValue schema columns row i).getD (Table.defaultOf c)

/-- The expression a column is assigned last. -/
def lastAssigned (assignments : List (Str × Expr)) (i : Nat) : Option Expr :=
  (assignments.reverse.find? fun a => schema.indexOf a.1 = some i).map Prod.snd

/-- The row after the assignments, all evaluated on the row as it was. -/
def updatedRow (assignments : List (Str × Expr)) (r : Record) : Record where
  values := r.values.mapIdx fun i v =>
    ((lastAssigned schema assignments i).bind (atomOf schema r)).getD v

/-- What a statement makes of the rows, and how many it treats. -/
def RowList.apply (t : RowList) : Statement → RowList × Nat
  | .insert s =>
    ({ rows := t.rows ++ s.rows.mapIdx fun i row => (t.nextId + i, insertedRow schema s.columns row)
       nextId := t.nextId + s.rows.length }, s.rows.length)
  | .update s =>
    ({ t with rows := t.rows.map fun p =>
        (p.1, if holds regex schema s.where? p.2 then updatedRow schema s.assignments p.2 else p.2) },
      t.rows.countP fun p => holds regex schema s.where? p.2)
  | .delete s =>
    ({ t with rows := t.rows.filter fun p => !holds regex schema s.where? p.2 },
      t.rows.countP fun p => holds regex schema s.where? p.2)
  | _ => (t, 0)

theorem holds_iff {cond : Option Expr} {r : Record} :
    holds regex schema cond r = true ↔ Selected regex schema cond r := by
  cases cond with
  | none => exact iff_of_true rfl (fun w hw => by cases hw)
  | some w => simp [holds, Selected]

end Meaning

/-! ### VALUE rows -/

section Insertion
variable {ι : Type} {t : Table ι}

/-- A slot has what it had before, or what the first assignment of its position gave. -/
theorem assignSlots_ok {pairs : List (Nat × Value)} {slots slots' : List (Option Value)}
    (h : t.assignSlots pairs slots = .ok slots') : slots'.length = slots.length ∧
      ∀ i < slots.length, slots'.getD i none =
        (slots.getD i none).or ((pairs.find? fun p => p.1 = i).map Prod.snd) := by
  induction pairs generalizing slots with
  | nil =>
    injection h with h
    subst h
    exact ⟨rfl, fun i _ => by simp⟩
  | cons p pairs ih =>
    obtain ⟨pos, v⟩ := p
    rw [Table.assignSlots] at h
    split at h
    · cases h
    · rename_i hfree
      obtain ⟨hlen, hslot⟩ := ih h
      rw [List.length_set] at hlen hslot
      refine ⟨hlen, fun i hi => ?_⟩
      rw [hslot i hi]
      by_cases hpos : pos = i
      · subst hpos
        have hnone : slots.getD pos none = none := by simpa using hfree
        rw [hnone]
        simp [List.getD_eq_getElem?_getD, hi]
      · simp [List.getD_eq_getElem?_getD, hpos]

theorem materialize_ok {positions : List Nat} {row : List Value} {r : Record}
    (h : t.materialize positions row = .ok r) :
    r.values = t.schema.columns.mapIdx fun i c =>
      (((positions.zip row).find? fun p => p.1 = i).map Prod.snd).getD (Table.defaultOf c) := by
  rw [Table.materialize] at h
  split at h
  · cases h
  · obtain ⟨slots, hslots, h⟩ := except_bind_eq_ok.mp h
    injection h with h
    subst h
    obtain ⟨hlen, hslot⟩ := assignSlots_ok hslots
    rw [List.length_map] at hlen hslot
    refine List.ext_getElem (by simp [hlen]) fun i hi _ => ?_
    have hcol : i < t.schema.columns.length := by simpa [hlen] using hi
    have hi' : i < slots.length := hlen ▸ hcol
    have hs := hslot i hcol
    rw [List.getD_eq_getElem?_getD, List.getElem?_eq_getElem hi', Option.getD_some] at hs
    simp [hs, List.getD_eq_getElem?_getD, hcol]

theorem requireColumn_eq_ok {name : Str} {i : Nat} (h : t.requireColumn name = .ok i) :
    t.schema.indexOf name = some i := by
  unfold Table.requireColumn at h
  split at h
  · rename_i j hj
    injection h with h
    exact h ▸ hj
  · cases h

/-- The positions stand for the columns of a list. -/
theorem columnPositions_ok {columns : List Str} {positions : List Nat}
    (h : columnPositions t columns = .ok positions) :
    List.Forall₂ (fun name pos => t.schema.indexOf name = some pos) columns positions := by
  induction columns generalizing positions with
  | nil =>
    injection h with h
    subst h
    exact .nil
  | cons name names ih =>
    obtain ⟨pos, hpos, h⟩ := except_bind_eq_ok.mp h
    obtain ⟨rest, hrest, h⟩ := except_bind_eq_ok.mp h
    injection h with h
    subst h
    exact .cons (requireColumn_eq_ok hpos) (ih hrest)

theorem find_zip_names {schema : TableSchema} {columns : List Str} {positions : List Nat}
    (h : List.Forall₂ (fun name pos => schema.indexOf name = some pos) columns positions)
    (row : List Value) (i : Nat) :
    ((positions.zip row).find? fun p => p.1 = i).map Prod.snd =
      ((columns.zip row).find? fun p => schema.indexOf p.1 = some i).map Prod.snd := by
  induction h generalizing row with
  | nil => rfl
  | @cons name pos names positions hpos _ ih =>
    cases row with
    | nil => rfl
    | cons v row =>
      simp only [List.zip_cons_cons, List.find?_cons, hpos, Option.some.injEq]
      by_cases hi : pos = i
      · simp [hi]
      · simp [hi, ih]

/-- The positions of all columns, from some column on. -/
theorem find_zip_range (row : List Value) (start i : Nat) :
    (((List.range' start row.length).zip row).find? fun p => p.1 = start + i).map Prod.snd =
      row[i]? := by
  induction row generalizing start i with
  | nil => simp
  | cons v row ih =>
    simp only [List.length_cons, List.range'_succ, List.zip_cons_cons, List.find?_cons]
    cases i with
    | zero => simp
    | succ i =>
      have hne : (start = start + (i + 1)) = False := by simp
      rw [show start + (i + 1) = start + 1 + i by omega] at *
      simp only [hne, decide_false, List.getElem?_cons_succ]
      exact ih (start + 1) i

/-- The positions of an INSERT: beside them, a VALUE row gives every column the value it
lists for it. -/
def Listing (schema : TableSchema) (columns : List Str) (positions : List Nat) : Prop :=
  ∀ row : List Value, row.length = positions.length → ∀ i,
    ((positions.zip row).find? fun p => p.1 = i).map Prod.snd = listedValue schema columns row i

theorem insertPositions_ok {columns : List Str} {positions : List Nat}
    (h : insertPositions t columns = .ok positions) : Listing t.schema columns positions := by
  intro row hlen i
  rw [insertPositions] at h
  rw [listedValue]
  split at h
  · rename_i hcols
    injection h with h
    subst h
    rw [List.length_range] at hlen
    rw [if_pos hcols, ← hlen, List.range_eq_range']
    simpa using find_zip_range row 0 i
  · rename_i hcols
    rw [if_neg hcols, find_zip_names (columnPositions_ok h)]

/-- The record of a VALUE row. -/
theorem materialize_insertedRow {columns : List Str} {positions : List Nat} {row : List Value}
    {r : Record} (hpos : Listing t.schema columns positions)
    (hlen : row.length = positions.length) (h : t.materialize positions row = .ok r) :
    r = insertedRow t.schema columns row := by
  have hvalues := materialize_ok h
  simp only [hpos row hlen] at hvalues
  cases r
  exact congrArg Record.mk hvalues

end Insertion

/-! ### Assignments -/

section Assignments
variable {ι : Type} {t : Table ι} {r : Record}

/-- The last assignment of a column wins. -/
theorem assign_getElem (assigns : List (Nat × Value)) (r : Record) (i : Nat) :
    (r.assign assigns).values[i]? = r.values[i]?.map fun v =>
      ((assigns.reverse.find? fun a => a.1 = i).map Prod.snd).getD v := by
  induction assigns generalizing r with
  | nil => simp [Record.assign]
  | cons a assigns ih =>
    obtain ⟨col, w⟩ := a
    rw [Record.assign, ih, List.reverse_cons, List.find?_append]
    cases hlast : assigns.reverse.find? fun a => a.1 = i with
    | some b => by_cases hi : i < r.values.length <;> simp [hi]
    | none =>
      by_cases hcol : col = i
      · subst hcol
        by_cases hi : col < r.values.length <;> simp [hi]
      · simp [hcol]

/-- The assignments of an UPDATE, by name and by position. -/
def Resolving (schema : TableSchema) : List (Str × Expr) → List (Nat × Expr) → Prop :=
  List.Forall₂ fun a c => schema.indexOf a.1 = some c.1 ∧ a.2 = c.2

theorem assignmentColumns_ok {assignments : List (Str × Expr)} {columns : List (Nat × Expr)}
    (h : assignmentColumns t assignments = .ok columns) :
    Resolving t.schema assignments columns := by
  induction assignments generalizing columns with
  | nil =>
    injection h with h
    subst h
    exact .nil
  | cons a rest ih =>
    obtain ⟨i, hi, h⟩ := except_bind_eq_ok.mp h
    obtain ⟨cs, hcs, h⟩ := except_bind_eq_ok.mp h
    injection h with h
    subst h
    exact .cons ⟨requireColumn_eq_ok hi, rfl⟩ (ih hcs)

theorem evalAssignments_ok [TableIndex ι] {assignments : List (Str × Expr)} {columns : List (Nat × Expr)}
    {assigns : List (Nat × Value)}
    (hcols : Resolving t.schema assignments columns) (h : evalAssignments t r columns = .ok assigns) :
    List.Forall₂ (fun a b => t.schema.indexOf a.1 = some b.1 ∧
      atomOf t.schema r a.2 = some b.2) assignments assigns := by
  induction hcols generalizing assigns with
  | nil =>
    injection h with h
    subst h
    exact .nil
  | cons hac _ ih =>
    obtain ⟨v, hv, h⟩ := except_bind_eq_ok.mp h
    obtain ⟨bs, hbs, h⟩ := except_bind_eq_ok.mp h
    injection h with h
    subst h
    exact .cons ⟨hac.1, by rw [hac.2]; exact evalAtom_eq_ok.mp hv⟩ (ih hbs)

/-- Looking for a column among the assignments by name or by position. -/
theorem find_assigned {schema : TableSchema} {assignments : List (Str × Expr)}
    {assigns : List (Nat × Value)}
    (h : List.Forall₂ (fun a b => schema.indexOf a.1 = some b.1 ∧
      atomOf schema r a.2 = some b.2) assignments assigns) (i : Nat) :
    (assigns.find? fun b => b.1 = i).map Prod.snd =
      ((assignments.find? fun a => schema.indexOf a.1 = some i).map Prod.snd).bind
        (atomOf schema r) := by
  induction h with
  | nil => rfl
  | @cons a b as bs hab _ ih =>
    simp only [List.find?_cons, hab.1, Option.some.injEq]
    by_cases hi : b.1 = i
    · simp [hi, hab.2]
    · simp [hi, ih]

/-- The record after the SET expressions of a statement were evaluated and assigned. -/
theorem assign_updatedRow [TableIndex ι] {assignments : List (Str × Expr)} {columns : List (Nat × Expr)}
    {assigns : List (Nat × Value)} (hcols : Resolving t.schema assignments columns)
    (h : evalAssignments t r columns = .ok assigns) :
    r.assign assigns = updatedRow t.schema assignments r := by
  have hboth := evalAssignments_ok hcols h
  have hlast := find_assigned (List.forall₂_reverse_iff.mpr hboth)
  have hvalues : (r.assign assigns).values = (updatedRow t.schema assignments r).values := by
    refine List.ext_getElem? fun i => ?_
    rw [assign_getElem, hlast, updatedRow, List.getElem?_mapIdx]
    rfl
  cases hr : r.assign assigns
  rw [hr] at hvalues
  exact congrArg Record.mk hvalues

end Assignments

/-! ### The rows of a table, operation by operation -/

section Rows
variable {lost : Lost} {t : Table (KeyMap lost)}

theorem mem_rows {ι : Type} {t : Table ι} {p : RecordId × Record} :
    p ∈ (rowList t).rows ↔ p.1 ∈ t.order ∧ t.records p.1 = some p.2 := by
  obtain ⟨id, r⟩ := p
  simp only [rowList, List.mem_filterMap, Option.map_eq_some_iff, Prod.mk.injEq]
  constructor
  · rintro ⟨i, hi, x, hx, rfl, rfl⟩
    exact ⟨hi, hx⟩
  · rintro ⟨hi, hr⟩
    exact ⟨id, hi, r, hr, rfl, rfl⟩

theorem rows_nodup (h : t.Sound) : ((rowList t).rows.map Prod.fst).Nodup := by
  rw [rowList, List.map_filterMap]
  refine h.order_nodup.filterMap fun i j k hi hj => ?_
  simp only [Option.map_map, Option.mem_def, Option.map_eq_some_iff, Function.comp_apply] at hi hj
  obtain ⟨-, -, rfl⟩ := hi
  obtain ⟨-, -, rfl⟩ := hj
  rfl

theorem rows_inserted (h : t.Sound) (r : Record) :
    (rowList (t.inserted r)).rows = (rowList t).rows ++ [(t.nextId, r)] := by
  have hnew : (t.inserted r).records t.nextId = some r := by
    show Function.update t.records t.nextId _ t.nextId = _
    rw [Function.update_self, h.fresh, Option.getD_none]
  have hold : ∀ id ∈ t.order, (t.inserted r).records id = t.records id := by
    intro id hid
    exact Function.update_of_ne (Nat.ne_of_lt (h.lt_nextId id hid)) _ _
  show (t.order ++ [t.nextId]).filterMap _ = _
  rw [List.filterMap_append]
  congr 1
  · exact List.filterMap_congr fun id hid => by rw [hold id hid]
  · simp [hnew]

/-- Rows changed by a function, those of some ids only. -/
theorem rows_changed {ι : Type} {t t' : Table ι} {f : Record → Record} {ids : List RecordId}
    (horder : t'.order = t.order)
    (hrecords : ∀ id, t'.records id = if id ∈ ids then (t.records id).map f else t.records id) :
    (rowList t').rows = (rowList t).rows.map fun p => (p.1, if p.1 ∈ ids then f p.2 else p.2) := by
  rw [rowList, rowList, List.map_filterMap, horder]
  refine List.filterMap_congr fun id _ => ?_
  rw [hrecords id, Option.map_map]
  split
  · rename_i hid
    rw [Option.map_map]
    simp [Function.comp_def, hid]
  · rename_i hid
    simp [Function.comp_def, hid]

/-- Rows gone, those of some ids. -/
theorem rows_removed {ι : Type} {t t' : Table ι} {ids : List RecordId}
    (horder : t'.order = t.order.filter (· ∉ ids))
    (hrecords : ∀ id, t'.records id = if id ∈ ids then none else t.records id) :
    (rowList t').rows = (rowList t).rows.filter fun p => p.1 ∉ ids := by
  rw [rowList, rowList, horder, List.filterMap_filter, List.filter_filterMap]
  refine List.filterMap_congr fun id _ => ?_
  rw [hrecords id]
  by_cases hid : id ∈ ids
  · cases t.records id with
    | none => simp [hid]
    | some r => simp [hid, Option.filter]
  · cases t.records id with
    | none => simp [hid]
    | some r => simp [hid, Option.filter]

end Rows
end CwDb.Sql
