import CwDb.Core.Dbms
import CwDb.Storage.TableFormat
import CwDb.Storage.TableInvariant

/-! The files of a table and the steps of their loading.

A table that its file has room for comes back from a file of any version as it was, apart
from its indexes (`Exact.kept_alike`). The indexes are built from records, from blocks of ids
that follow them, or opened from files of their own; here are the blocks, the loops over the
columns and what stops them. -/
namespace CwDb.Storage
open Foundation

/-! ### What a file keeps exactly -/

/-- A column definition that comes back as it was. -/
structure ExactColumn (c : ColumnDef) : Prop where
  name_lt : c.name.length < 256 ^ 4
  type : DataType.ofByte (DataType.byte c.type) = c.type
  default_lt : ∀ s, c.defaultValue = .str s → s.length < 256 ^ 4
  noDefault : c.hasDefault = false → c.defaultValue = .null

theorem keptString_eq {s : Str} (h : s.length < 256 ^ 4) : keptString s = s := by
  rw [keptString, Nat.mod_eq_of_lt h, List.take_length]

theorem keptValue_eq {v : Value} (h : ∀ s, v = .str s → s.length < 256 ^ 4) : keptValue v = v := by
  cases v with
  | null => rfl
  | int i => rfl
  | str s => rw [keptValue, keptString_eq (h s rfl)]

theorem ExactColumn.kept {c : ColumnDef} (h : ExactColumn c) : keptColumn c = c := by
  have hdefault : (if c.hasDefault then keptValue c.defaultValue else .null) = c.defaultValue := by
    cases hc : c.hasDefault with
    | true => exact keptValue_eq h.default_lt
    | false => exact (h.noDefault hc).symm
  rw [keptColumn, keptString_eq h.name_lt, h.type, hdefault]

namespace Table
open DiskM

section Exact
variable {ι : Type}

/-- A table that comes back as it was: what its file has room for, and no record
without an id in the order. -/
structure Exact (t : Table ι) : Prop extends t.Storable where
  name_lt : t.name.length < 256 ^ 4
  nextId_lt : t.nextId < 256 ^ 8
  columns : ∀ c ∈ t.schema.columns, ExactColumn c
  ids_lt : ∀ id ∈ t.order, id < 256 ^ 8
  values : ∀ id r, t.records id = some r → ∀ v ∈ r.values, ∀ s, v = .str s → s.length < 256 ^ 4
  order_nodup : t.order.Nodup
  mem_order : ∀ id, id ∈ t.order ↔ (t.records id).isSome = true

theorem lookup_rowsIn (t : Table ι) (ids : List RecordId) (id : RecordId) :
    (t.rowsIn ids).lookup id = if id ∈ ids then t.records id else none := by
  induction ids with
  | nil => rfl
  | cons i ids ih =>
    cases hi : t.records i with
    | none =>
      have hrows : t.rowsIn (i :: ids) = t.rowsIn ids :=
        List.filterMap_cons_none (by rw [hi]; rfl)
      rw [hrows, ih]
      by_cases hid : id = i
      · subst hid
        simp [hi]
      · simp [hid]
    | some r =>
      have hrows : t.rowsIn (i :: ids) = (i, r) :: t.rowsIn ids :=
        List.filterMap_cons_some (by rw [hi]; rfl)
      rw [hrows, List.lookup_cons, ih]
      by_cases hid : id = i
      · subst hid
        simp [hi]
      · simp [beq_false_of_ne hid, hid]

theorem Exact.rows {t : Table ι} (ht : t.Exact) :
    (t.rowsIn t.order).map keptRow = t.rowsIn t.order := by
  conv_rhs => rw [← List.map_id (t.rowsIn t.order)]
  apply List.map_congr_left
  intro row hrow
  obtain ⟨hid, hr⟩ := mem_rowsIn.mp hrow
  have hvalues : row.2.values.map keptValue = row.2.values := by
    conv_rhs => rw [← List.map_id row.2.values]
    exact List.map_congr_left fun v hv => keptValue_eq (ht.values _ _ hr v hv)
  rw [keptRow, Nat.mod_eq_of_lt (ht.ids_lt _ hid), hvalues]
  rfl

theorem Exact.order {t : Table ι} (ht : t.Exact) (ids : List RecordId)
    (hids : ∀ id ∈ ids, id ∈ t.order) : (t.rowsIn ids).map Prod.fst = ids := by
  induction ids with
  | nil => rfl
  | cons id ids ih =>
    obtain ⟨hid, hids⟩ := List.forall_mem_cons.mp hids
    obtain ⟨r, hr⟩ := Option.isSome_iff_exists.mp ((ht.mem_order id).mp hid)
    have hrows : t.rowsIn (id :: ids) = (id, r) :: t.rowsIn ids :=
      List.filterMap_cons_some (by rw [hr]; rfl)
    rw [hrows, List.map_cons, ih hids]

/-- What is read from a file of any version is the table, apart from its indexes. -/
theorem Exact.kept_alike {t : Table ι} (ht : t.Exact) (version : Nat) :
    t.Alike (((t.contents ht.toStorable).kept version).table : Table ι) := by
  have hcolumns : t.schema.columns.map keptColumn = t.schema.columns := by
    conv_rhs => rw [← List.map_id t.schema.columns]
    exact List.map_congr_left fun c hc => (ht.columns c hc).kept
  refine ⟨keptString_eq ht.name_lt, ?_, ?_, ?_, Nat.mod_eq_of_lt ht.nextId_lt⟩
  · exact congrArg TableSchema.mk hcolumns
  · funext id
    show ((t.rowsIn t.order).map keptRow).lookup id = t.records id
    rw [ht.rows, lookup_rowsIn]
    by_cases hid : id ∈ t.order
    · rw [if_pos hid]
    · rw [if_neg hid]
      have hnone := mt (ht.mem_order id).mpr hid
      rw [Option.not_isSome_iff_eq_none] at hnone
      exact hnone.symm
  · show ((t.rowsIn t.order).map keptRow).map Prod.fst = t.order
    rw [ht.rows, ht.order t.order fun _ h => h]

end Exact

/-! ### Columns an index takes -/

/-- A column whose values an index takes: none of them NULL or over-long, none twice. -/
structure Keyable {ι : Type} (t : Table ι) (col : Nat) : Prop where
  indexable : ∀ id r, t.records id = some r → Indexable (r.value col)
  injective : ∀ i j r r', t.records i = some r → t.records j = some r' →
    r.value col = r'.value col → i = j

section Columns
variable {ι : Type} {t : Table ι} {col : Nat} {ids : List RecordId}

theorem mem_columnEntries {e : Value × RecordId} :
    e ∈ columnEntries t col ids ↔ e.2 ∈ ids ∧ ∃ r, t.records e.2 = some r ∧ r.value col = e.1 := by
  simp only [columnEntries, List.mem_filterMap, Option.map_eq_some_iff]
  constructor
  · rintro ⟨id, hid, r, hr, rfl⟩
    exact ⟨hid, r, hr, rfl⟩
  · rintro ⟨hid, r, hr, hv⟩
    exact ⟨e.2, hid, r, hr, by rw [hv]⟩

theorem mem_sortByKey {entries : List (Value × RecordId)} {e : Value × RecordId} :
    e ∈ sortByKey entries ↔ e ∈ entries :=
  (List.mergeSort_perm _ _).mem_iff

/-- Values of one type, each once, are sorted strictly. -/
theorem sortByKey_sorted {ty : DataType} {entries : List (Value × RecordId)}
    (htyped : ∀ e ∈ entries, e.1.HasType ty)
    (hdistinct : entries.Pairwise fun a b => a.1 ≠ b.1) : SortedKeys (sortByKey entries) := by
  have horder : sortByKey entries = entries.mergeSort fun a b => decide (a.1 ≤ b.1) := by
    have hsame : ∀ a ∈ entries, ∀ b ∈ entries,
        (!decide ((b.1.compare a.1).1 < 0)) = decide (a.1 ≤ b.1) := by
      intro a ha b hb
      rw [← decide_not]
      exact decide_eq_decide.mpr ((not_congr (Value.compare_neg_iff (htyped b hb) (htyped a ha))).trans
        not_lt)
    have h := List.map_mergeSort (r := fun a b : Value × RecordId =>
      !decide ((b.1.compare a.1).1 < 0)) (s := fun a b => decide (a.1 ≤ b.1)) (f := id) hsame
    rwa [List.map_id, List.map_id] at h
  have htrans : ∀ a b c : Value × RecordId, decide (a.1 ≤ b.1) = true → decide (b.1 ≤ c.1) = true →
      decide (a.1 ≤ c.1) = true := fun a b c hab hbc =>
    decide_eq_true ((of_decide_eq_true hab).trans (of_decide_eq_true hbc))
  have htotal : ∀ a b : Value × RecordId, (decide (a.1 ≤ b.1) || decide (b.1 ≤ a.1)) = true := by
    intro a b
    rw [Bool.or_eq_true, decide_eq_true_iff, decide_eq_true_iff]
    exact le_total a.1 b.1
  have hle : (sortByKey entries).Pairwise fun a b => a.1 ≤ b.1 := by
    rw [horder]
    exact (List.pairwise_mergeSort htrans htotal entries).imp of_decide_eq_true
  have hne : (sortByKey entries).Pairwise fun a b => a.1 ≠ b.1 :=
    (List.mergeSort_perm entries _).symm.pairwise hdistinct fun h => Ne.symm h
  exact (hle.and hne).imp fun h => lt_of_le_of_ne h.1 h.2

theorem assertIndexedColumnNotNull_ok
    (h : ∀ id ∈ ids, ∃ r, t.records id = some r ∧ (r.value col).isNull = false) :
    assertIndexedColumnNotNull t col ids = .ok () := by
  induction ids with
  | nil => rfl
  | cons id ids ih =>
    obtain ⟨⟨r, hr, hvalue⟩, h⟩ := List.forall_mem_cons.mp h
    have hnull : ¬ (r.value col).isNull = true := by
      rw [hvalue]
      exact Bool.false_ne_true
    rw [assertIndexedColumnNotNull, hr]
    exact (if_neg hnull).trans (ih h)

theorem Keyable.asserted (hkeys : t.Keyable col)
    (hmem : ∀ id, id ∈ ids ↔ (t.records id).isSome = true) :
    assertIndexedColumnNotNull t col ids = .ok () := by
  refine assertIndexedColumnNotNull_ok fun id hid => ?_
  obtain ⟨r, hr⟩ := Option.isSome_iff_exists.mp ((hmem id).mp hid)
  exact ⟨r, hr, (hkeys.indexable id r hr).1⟩

theorem Alike.keyable {u : Table ι} (h : t.Alike u) {col : Nat} :
    u.Keyable col ↔ t.Keyable col := by
  constructor
  · exact fun hkeys => ⟨h.records ▸ hkeys.indexable, h.records ▸ hkeys.injective⟩
  · exact fun hkeys => ⟨h.records.symm ▸ hkeys.indexable, h.records.symm ▸ hkeys.injective⟩

theorem Alike.columnEntries {u : Table ι} (h : t.Alike u) (col : Nat)
    (ids : List RecordId) : Table.columnEntries u col ids = Table.columnEntries t col ids := by
  rw [Table.columnEntries, h.records]
  rfl

theorem Alike.mem_order {u : Table ι} (h : t.Alike u)
    (hmem : ∀ id, id ∈ t.order ↔ (t.records id).isSome = true) :
    ∀ id, id ∈ u.order ↔ (u.records id).isSome = true := by
  rw [h.order, h.records]
  exact hmem

/-- The values of the indexed columns have the types of their columns. -/
def Typed (t : Table ι) : Prop :=
  ∀ col c, t.schema.columns[col]? = some c → c.indexed = true →
    ∀ id r, t.records id = some r → (r.value col).HasType c.type

end Columns

/-! ### Loops over columns -/

variable {ι : Type} [TableIndex ι] {t : Table ι} {path : Path} {s : OnDisk ι (Table ι)}

/-- A loop with a round that throws. -/
theorem eachColumn_error {f : Nat → TableM ι Unit} {cols : List Nat} {col : Nat}
    (hcol : col ∈ cols) (hf : ∀ s, ∃ e s', f col s = .error e s') :
    ∃ e s', eachColumn f cols s = .error e s' := by
  induction cols generalizing s with
  | nil => cases hcol
  | cons c cols ih =>
    rcases List.mem_cons.mp hcol with rfl | hcol
    · obtain ⟨e, s', h⟩ := hf s
      exact ⟨e, s', bind_error h⟩
    · cases hc : f c s with
      | error e s' => exact ⟨e, s', bind_error hc⟩
      | ok u s' =>
        obtain ⟨e, s'', h⟩ := ih (s := s') hcol
        exact ⟨e, s'', (bind_ok hc).trans h⟩

theorem rebuildIndexesOnDisk_eq (hbound : s.obj.datPath = some path) :
    rebuildIndexesOnDisk s = eachColumn (fun col => do
      fromExcept (assertIndexedColumnNotNull s.obj col s.obj.order)
      buildIndex path col (columnEntries s.obj col s.obj.order)) s.obj.schema.indexedColumns
      ⟨{ s.obj with indexes := fun _ => none }, s.fs⟩ := by
  rw [rebuildIndexesOnDisk, getObj_bind_apply, hbound]
  rfl

/-! ### Blocks of ids -/

/-- The block of an index: its column and the ids of its keys. -/
def writeBlock (b : Nat × List RecordId) : Bytes :=
  LittleEndian.encode 4 b.1 ++ LittleEndian.encode 8 b.2.length ++
    b.2.flatMap (LittleEndian.encode 8)

def writeBlocks (blocks : List (Nat × List RecordId)) : Bytes :=
  LittleEndian.encode 4 blocks.length ++ blocks.flatMap writeBlock

/-- Blocks that fit their fields, where every indexed column has one and lists every id
once, in any order. -/
structure Blocks (t : Table ι) (blocks : List (Nat × List RecordId)) : Prop where
  count_lt : blocks.length < 256 ^ 4
  col_lt : ∀ b ∈ blocks, b.1 < 256 ^ 4
  length_lt : ∀ b ∈ blocks, b.2.length < 256 ^ 8
  ids_lt : ∀ b ∈ blocks, ∀ id ∈ b.2, id < 256 ^ 8
  listed : ∀ b ∈ blocks, b.1 ∈ t.schema.indexedColumns → b.2.Perm t.order
  covered : ∀ col ∈ t.schema.indexedColumns, ∃ b ∈ blocks, b.1 = col

omit path t s in
theorem readIds_write (ids : List RecordId) (hids : ∀ id ∈ ids, id < 256 ^ 8) (rest : Bytes)
    (m : Nat) : readIds ⟨ids.flatMap (LittleEndian.encode 8) ++ rest, m⟩ ids.length =
      (ids, ⟨rest, m + ids.length⟩) := by
  induction ids generalizing m with
  | nil => rfl
  | cons id ids ih =>
    obtain ⟨hid, hids⟩ := List.forall_mem_cons.mp hids
    rw [List.flatMap_cons, List.append_assoc, List.length_cons, readIds, readPod_run]
    simp only [ih hids, Nat.mod_eq_of_lt hid, Nat.add_assoc, Nat.add_comm 1]

theorem loadBlocks_cons (b : Nat × List RecordId) (n : Nat) (rest : Bytes) (m : Nat)
    (hcol : b.1 < 256 ^ 4) (hlength : b.2.length < 256 ^ 8) (hids : ∀ id ∈ b.2, id < 256 ^ 8) :
    loadBlocks path (n + 1) ⟨writeBlock b ++ rest, m⟩ s =
      (do loadBlock path b.1 b.2; loadBlocks path n ⟨rest, m + 1 + 1 + b.2.length⟩ :
        TableM ι Unit) s := by
  rw [writeBlock, List.append_assoc, List.append_assoc, loadBlocks, readPod_run]
  dsimp only
  rw [readPod_run]
  dsimp only
  rw [Nat.mod_eq_of_lt hcol, Nat.mod_eq_of_lt hlength, readIds_write b.2 hids]

variable (path) in
theorem loadBlock_skip {col : Nat} (hcol : col ∉ s.obj.schema.indexedColumns)
    (ids : List RecordId) : loadBlock path col ids s = .ok () s := by
  have hplain : (!s.obj.columnIsIndexed col) = true := by
    rw [Bool.not_eq_true', ← Bool.not_eq_true]
    exact mt (columnIsIndexed_iff s.obj col).mp hcol
  rw [loadBlock, getObj_bind_apply, if_pos hplain]
  rfl

theorem loadBlock_run {col : Nat} (hcol : col ∈ s.obj.schema.indexedColumns)
    (ids : List RecordId) : loadBlock path col ids s = (do
      fromExcept (assertIndexedColumnNotNull s.obj col s.obj.order)
      modifyObj fun t => { t with indexes := Function.update t.indexes col none }
      buildIndex path col (columnEntries s.obj col ids) : TableM ι Unit) s := by
  have hindexed : ¬ (!s.obj.columnIsIndexed col) = true := by
    rw [(columnIsIndexed_iff s.obj col).mpr hcol]
    exact Bool.false_ne_true
  rw [loadBlock, getObj_bind_apply, if_neg hindexed]

theorem buildIndex_alike (col : Nat) (entries : List (Value × RecordId)) :
    Keeps (fun s : OnDisk ι (Table ι) => t.Alike s.obj)
      (buildIndex path col entries) :=
  keeps_bind (keeps_fromExcept _) fun _ => keeps_bind (fun _ h => h) fun _ _ h =>
    ⟨h.name, h.schema, h.records, h.order, h.nextId⟩

variable (path) in
theorem loadBlock_alike (col : Nat) (ids : List RecordId) :
    Keeps (fun s : OnDisk ι (Table ι) => t.Alike s.obj)
      (loadBlock path col ids) := by
  refine keeps_bind (fun _ h => h) fun u => ?_
  split
  · exact keeps_pure ()
  · exact keeps_bind (keeps_fromExcept _) fun _ =>
      keeps_bind (fun _ h => ⟨h.name, h.schema, h.records, h.order, h.nextId⟩) fun _ =>
        buildIndex_alike _ _

/-! ### Index files at the end of the process -/

theorem syncIndexes_read {u : Table ι} (hbound : u.datPath = some path) {col : Nat}
    {d : ι} (hd : u.indexes col = some d) (cols : List Nat) (fs : FileSystem ι)
    (h : col ∈ cols ∨ fs.read (path.indexFile col) = some (.index (TableIndex.file d))) :
    (Dbms.syncIndexes u fs cols).read (path.indexFile col) =
      some (.index (TableIndex.file d)) := by
  induction cols generalizing fs with
  | nil => exact h.resolve_left List.not_mem_nil
  | cons c cols ih =>
    rw [Dbms.syncIndexes, hbound]
    by_cases hc : c = col
    · subst hc
      rw [hd]
      exact ih _ (.inr (FileSystem.read_write_self _ _ _))
    · have h : col ∈ cols ∨ fs.read (path.indexFile col) = some (.index (TableIndex.file d)) :=
        h.imp_left fun h => (List.mem_cons.mp h).resolve_left (Ne.symm hc)
      cases hother : u.indexes c with
      | none => exact ih _ h
      | some d' =>
        refine ih _ (h.imp_right fun h => ?_)
        rwa [FileSystem.read_write_ne _ _ fun heq => hc (Path.indexFile_injective heq).symm]

theorem syncIndexes_other {u : Table ι} (hbound : u.datPath = some path)
    (cols : List Nat) (fs : FileSystem ι) :
    (Dbms.syncIndexes u fs cols).read path = fs.read path := by
  induction cols generalizing fs with
  | nil => rfl
  | cons c cols ih =>
    rw [Dbms.syncIndexes, hbound]
    cases u.indexes c with
    | none => exact ih _
    | some m => rw [ih, FileSystem.read_write_ne _ _ (path.indexFile_ne c).symm]

/-! ### Reading -/

/-- A file read to its end, or to the blocks behind it: the rest of the load. -/
theorem load_file (ht : t.Exact) (junk : Nat → Nat) {version : Nat} (hversion : version = 1 ∨ version = 2 ∨ version = kVersion)
    {rest : Bytes}
    (hdata : s.fs.read path = some (.bytes ((t.contents ht.toStorable).file version ++ rest))) :
    ∃ u m, t.Alike u ∧ (∀ col, u.indexes col = none) ∧
      load junk path s = loadIndexes path version ⟨rest, m⟩ ⟨u, s.fs⟩ := by
  obtain ⟨m, hread⟩ := readTable_file junk (t.contents ht.toStorable) hversion s.obj.nextId path rest
  have halike := ht.kept_alike version
  refine ⟨{ ((t.contents ht.toStorable).kept version).table with datPath := s.obj.datPath }, m,
    ⟨halike.name, halike.schema, halike.records, halike.order, halike.nextId⟩, fun _ => rfl, ?_⟩
  exact load_of_readTable hdata hread

/-- A load whose indexes cannot all be opened throws. -/
theorem loadIndexes_blocked {u : Table ι} (hu : t.Alike u)
    (hnone : ∀ col, u.indexes col = none) {fs : FileSystem ι} (version : Nat)
    (w : ReadState)
    (hblocked : ¬ ∀ col ∈ t.schema.indexedColumns, Opens fs (path.indexFile col)) :
    ∃ e s', loadIndexes path version w ⟨u, fs⟩ = .error e s' := by
  push Not at hblocked
  obtain ⟨col, hcol, hclosed⟩ := hblocked
  obtain ⟨e, s', h⟩ := openAll_error (s := ⟨{ u with datPath := some path }, fs⟩)
    (hu.schema.symm ▸ hcol) (hnone col) hclosed
  exact ⟨e, s', bind_error ((bindDatPath_eq path _).trans h)⟩

/-- Where there is no file, a new one opens. -/
theorem opens_of_missing {lost : Lost} {fs : FileSystem (KeyMap lost)} {p : Path}
    (h : fs.read p = none) : Opens fs p :=
  ⟨KeyMap.empty, by rw [indexIn, h]; rfl⟩

end Table
end CwDb.Storage
