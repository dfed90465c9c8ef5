import CwDb.Storage.TableRows

/-! What every run of row operations keeps.

A table is sound (`Table.Sound`) when its four representations tell one story: the
order lists exactly the ids that have records, once each and all below the next id;
every record fits the schema; every index agrees. `insert`, `update` and `erase`
keep it as long as they return (`run_sound`). -/
namespace CwDb.Storage
open Foundation DiskM

variable {lost : Lost}

/-- A record of the schema: one value per column, of the column's type, not NULL
where the column is NOT_NULL or INDEXED. -/
structure Record.Conforming (r : Record) (schema : TableSchema) : Prop where
  arity : r.values.length = schema.columns.length
  nullable : ∀ col c, schema.columns[col]? = some c → (r.value col).isNull = true →
    c.notNull = false ∧ c.indexed = false
  typed : ∀ col c, schema.columns[col]? = some c → (r.value col).matchesType c.type = true

/-- An indexed value of a record that fits is a value of the column's type. -/
theorem Record.Conforming.hasType {schema : TableSchema} {r : Record} (h : r.Conforming schema)
    {col : Nat} {c : ColumnDef} (hc : schema.columns[col]? = some c) (hidx : c.indexed = true) :
    (r.value col).HasType c.type := by
  refine ⟨?_, h.typed col c hc⟩
  by_contra hnull
  have hfree := (h.nullable col c hc (by simpa using hnull)).2
  rw [hidx] at hfree
  cases hfree

namespace Table

structure Sound (t : Table (KeyMap lost)) : Prop extends t.Agrees where
  order_nodup : t.order.Nodup
  mem_order : ∀ id, id ∈ t.order ↔ (t.records id).isSome = true
  lt_nextId : ∀ id ∈ t.order, id < t.nextId
  conforming : ∀ id r, t.records id = some r → r.Conforming t.schema

/-! ### What the checks let through -/

section Accepted
variable {s : OnDisk (KeyMap lost) (Table (KeyMap lost))} {r : Record}
  {existing : Option RecordId}

/-- The checks of a record returned. -/
def Accepted (s : OnDisk (KeyMap lost) (Table (KeyMap lost))) (r : Record)
    (existing : Option RecordId) : Prop := enforceConstraints r existing s = .ok () s

theorem accepted_or_error (s : OnDisk (KeyMap lost) (Table (KeyMap lost))) (r : Record)
    (existing : Option RecordId) :
    Accepted s r existing ∨ ∃ e, enforceConstraints r existing s = .error e s := by
  rcases enforceConstraints_run (s := s) r existing with ⟨h, -⟩ | h
  · exact .inl h
  · exact .inr h

theorem accepted_inv (h : Accepted s r existing) :
    r.values.length = s.obj.schema.columns.length ∧
      checkValues s.obj.schema.columns r.values = .ok () ∧
        ∀ col ∈ s.obj.schema.indexedColumns, checkUnique r existing col s = .ok () s := by
  rcases enforceConstraints_run (s := s) r existing with ⟨-, h'⟩ | ⟨e, he⟩
  · exact h'
  · rw [Accepted, he] at h
    cases h

/-- The checks of a record by itself: NULLs, types and the number of values. -/
theorem conforming_of_checks {schema : TableSchema} (hlen : r.values.length = schema.columns.length)
    (hvalues : checkValues schema.columns r.values = .ok ()) : r.Conforming schema := by
  have hvalue : ∀ col c, schema.columns[col]? = some c →
      r.values[col]? = some (r.value col) := by
    intro col c hc
    have hcol := (List.getElem?_eq_some_iff.mp hc).1
    have hcol' : col < r.values.length := by omega
    rw [Record.value, List.getD_eq_getElem?_getD, List.getElem?_eq_getElem hcol', Option.getD_some]
  exact {
    arity := hlen
    nullable := fun col c hc => (checkValues_ok hvalues col c hc _ (hvalue col c hc)).1
    typed := fun col c hc => (checkValues_ok hvalues col c hc _ (hvalue col c hc)).2 }

theorem accepted_conforming (h : Accepted s r existing) : r.Conforming s.obj.schema :=
  conforming_of_checks (accepted_inv h).1 (accepted_inv h).2.1

/-- What the checks say about an indexed column: its index has the value for nobody,
or for the record that is being changed. -/
theorem accepted_lookup (hs : s.obj.Agrees) (h : Accepted s r existing) {col : Nat}
    (hcol : col ∈ s.obj.schema.indexedColumns) {m : KeyMap lost}
    (hm : s.obj.indexes col = some m) :
    lookupKey (r.value col) m.entries = none ∨ lookupKey (r.value col) m.entries = existing := by
  obtain ⟨c, hc, hidx⟩ := TableSchema.mem_indexedColumns.mp hcol
  obtain ⟨m', hm', hagree⟩ := hs.agree col hcol
  rw [hm] at hm'
  injection hm' with hm'
  subst hm'
  have htype := Record.Conforming.hasType (accepted_conforming h) hc hidx
  have hunique := (accepted_inv h).2.2 col hcol
  rw [checkUnique_run, if_neg (by rw [htype.1]; exact Bool.false_ne_true),
    indexAt_of_agrees hs hcol, hm, Option.bind_some,
    KeyMap.findId_comparable (hs.comparable hc hidx hagree htype)] at hunique
  simp only at hunique
  split at hunique
  · cases hunique
  · rename_i hfound
    cases hl : lookupKey (r.value col) m.entries with
    | none => exact .inl rfl
    | some id => exact .inr (by simpa [hl] using hfound)

/-- A record that passes the checks by itself is accepted, where no other record has one of
its indexed values. -/
theorem accepted_of_checks (hs : s.obj.Agrees)
    (hlen : r.values.length = s.obj.schema.columns.length)
    (hvalues : checkValues s.obj.schema.columns r.values = .ok ())
    (hfree : ∀ col ∈ s.obj.schema.indexedColumns, ∀ j r', s.obj.records j = some r' →
      r'.value col = r.value col → some j = existing) : Accepted s r existing := by
  rw [Accepted, enforceConstraints, getObj_bind_apply, if_neg (not_not_intro hlen), hvalues,
    bind_ok (fromExcept_ok_apply () s)]
  apply eachColumn_of_still
  intro col hcol
  obtain ⟨c, hc, hidx⟩ := TableSchema.mem_indexedColumns.mp hcol
  obtain ⟨m, hm, hagree⟩ := hs.agree col hcol
  have htype := Record.Conforming.hasType (conforming_of_checks hlen hvalues) hc hidx
  rw [checkUnique_run, indexAt_of_agrees hs hcol, hm, Option.bind_some,
    KeyMap.findId_comparable (hs.comparable hc hidx hagree htype), if_neg (by simp [htype.1])]
  simp only
  cases hl : lookupKey (r.value col) m.entries with
  | none => simp
  | some j =>
    obtain ⟨r', hr', hval⟩ := (hagree (r.value col) j).mp ((lookupKey_eq_some m.sorted).mp hl)
    have hown := hfree col hcol j r' hr' hval
    simp [hown]

end Accepted

/-! ### Row operations -/

inductive RowOp where
  | insert (record : Record)
  | update (id : RecordId) (assignments : List (Nat × Value))
  | erase (id : RecordId)

/-- An insertion gives an id. -/
def RowOp.run {ι : Type} [TableIndex ι] : RowOp → TableM ι (Option RecordId)
  | .insert record => do
    let id ← Table.insert record
    return some id
  | .update id assignments => do
    Table.update id assignments
    return none
  | .erase id => do
    Table.erase id
    return none

section Steps
variable {s s' : OnDisk (KeyMap lost) (Table (KeyMap lost))}

/-- The table with a record under the next id, its indexes as they were. -/
def withRow {ι : Type} (t : Table ι) (r : Record) : Table ι :=
  { t with nextId := t.nextId + 1
           records := Function.update t.records t.nextId (some ((t.records t.nextId).getD r))
           order := t.order ++ [t.nextId] }

theorem insert_of_accepted {r : Record} (h : Accepted s r none) :
    Table.insert r s = (do
      installIntoIndexes s.obj.nextId ((s.obj.records s.obj.nextId).getD r)
      return s.obj.nextId) { s with obj := s.obj.withRow r } := by
  rw [Table.insert, bind_ok h]
  rfl

theorem insert_of_rejected {r : Record} {e : Exn}
    (h : enforceConstraints r none s = .error e s) : Table.insert r s = .error e s := by
  rw [Table.insert, bind_error h]

/-- The table with a record replaced and its old keys gone from the indexes. -/
def withoutKeys (t : Table (KeyMap lost)) (id : RecordId) (old updated : Record) :
    Table (KeyMap lost) :=
  { t with records := Function.update t.records id (some updated)
           indexes := mapIndexes (fun col m => m.remove (old.value col))
             t.schema.indexedColumns t.indexes }

theorem update_of_accepted (hs : s.obj.Agrees) {id : RecordId} {old : Record}
    {assignments : List (Nat × Value)} (hold : s.obj.records id = some old)
    (h : Accepted s (old.assign assignments) (some id)) :
    Table.update id assignments s = installIntoIndexes id (old.assign assignments)
      { s with obj := s.obj.withoutKeys id old (old.assign assignments) } := by
  rw [Table.update, getObj_bind_apply, hold]
  refine (bind_ok h).trans ?_
  rw [bind_ok (removeFromIndexes_run hs hold)]
  rfl

theorem update_of_rejected {id : RecordId} {old : Record} {assignments : List (Nat × Value)}
    {e : Exn} (hold : s.obj.records id = some old)
    (h : enforceConstraints (old.assign assignments) (some id) s = .error e s) :
    Table.update id assignments s = .error e s := by
  rw [Table.update, getObj_bind_apply, hold]
  exact bind_error h

theorem update_of_missing {id : RecordId} {assignments : List (Nat × Value)}
    (hold : s.obj.records id = none) :
    Table.update id assignments s = .error (.runtimeError "Internal: record id not found") s := by
  rw [Table.update, getObj_bind_apply, hold]
  rfl

/-- The table without a record and its keys. -/
def withoutRow (t : Table (KeyMap lost)) (id : RecordId) (r : Record) : Table (KeyMap lost) :=
  { t with records := Function.update t.records id none
           order := t.order.erase id
           indexes := mapIndexes (fun col m => m.remove (r.value col))
             t.schema.indexedColumns t.indexes }

theorem erase_of_present (hs : s.obj.Agrees) {id : RecordId} {r : Record}
    (hr : s.obj.records id = some r) :
    Table.erase id s = .ok () { s with obj := s.obj.withoutRow id r } := by
  rw [Table.erase, getObj_bind_apply, hr]
  refine (bind_ok (removeFromIndexes_run hs hr)).trans ?_
  rfl

theorem erase_of_missing {id : RecordId} (hr : s.obj.records id = none) :
    Table.erase id s = .ok () s := by
  rw [Table.erase, getObj_bind_apply, hr]
  rfl

theorem withRow_opened (h : s.obj.Opened) (r : Record) : (s.obj.withRow r).Opened :=
  ⟨h.bound, h.isOpen⟩

theorem withoutKeys_opened (h : s.obj.Opened) (id : RecordId) (old updated : Record) :
    (s.obj.withoutKeys id old updated).Opened where
  bound := h.bound
  isOpen col hcol := by
    obtain ⟨m, hm⟩ := Option.isSome_iff_exists.mp (h.isOpen col hcol)
    simp only [withoutKeys, mapIndexes, hm]
    split <;> rfl

end Steps

/-! ### What an accepted record does -/

section Effects
variable {s : OnDisk (KeyMap lost) (Table (KeyMap lost))}

theorem not_indexable {v : Value} (h : kMaxIndexKeyBytes < encodedValueSize v) : ¬ Indexable v :=
  fun hv => absurd hv.2 (Nat.not_le_of_lt h)

/-- An accepted record has no NULL where there is an index. -/
theorem accepted_not_null {r : Record} {existing : Option RecordId} (h : Accepted s r existing) :
    ∀ col ∈ s.obj.schema.indexedColumns, (r.value col).isNull = false := by
  intro col hcol
  obtain ⟨c, hc, hidx⟩ := TableSchema.mem_indexedColumns.mp hcol
  exact (Record.Conforming.hasType (accepted_conforming h) hc hidx).1

/-- An accepted record whose keys the indexes take is inserted. -/
theorem insert_returns (hs : s.obj.Agrees) {r : Record} (h : Accepted s r none)
    (hkeys : ∀ col ∈ s.obj.schema.indexedColumns,
      encodedValueSize (r.value col) ≤ kMaxIndexKeyBytes) :
    Table.insert r s = .ok s.obj.nextId (OnDisk.withIndexes { s with obj := s.obj.withRow r }
      (mapIndexes (fun col m => m.put (r.value col) s.obj.nextId) s.obj.schema.indexedColumns
        s.obj.indexes)) := by
  rw [insert_of_accepted h, hs.fresh, Option.getD_none]
  refine bind_ok (installIntoIndexes_run (withRow_opened hs.opened r) ?_)
  intro col hcol m hm
  refine ⟨⟨accepted_not_null h col hcol, hkeys col hcol⟩, ?_⟩
  rcases accepted_lookup hs h hcol hm with hnone | hnone
  · exact hnone
  · exact hnone

/-- Without the keys of the record that is being changed, no index has one of its new
values. -/
theorem lookup_after_remove (hs : s.obj.Agrees) {id : RecordId} {old new : Record}
    (hold : s.obj.records id = some old) (h : Accepted s new (some id)) {col : Nat}
    (hcol : col ∈ s.obj.schema.indexedColumns) {m : KeyMap lost}
    (hm : s.obj.indexes col = some m) :
    lookupKey (new.value col) (m.remove (old.value col)).entries = none := by
  rw [lookupKey_eq_none]
  intro e he hek
  obtain ⟨hmem, hne⟩ := mem_eraseKey.mp he
  have hfound : lookupKey (new.value col) m.entries = some e.2 := by
    rw [lookupKey_eq_some m.sorted, ← hek]
    exact hmem
  rcases accepted_lookup hs h hcol hm with hnone | hsame
  · rw [hfound] at hnone
    cases hnone
  · -- the value was the record's own, so its key has just left the index
    rw [hfound] at hsame
    injection hsame with hsame
    obtain ⟨m', hm', hagree⟩ := hs.agree col hcol
    rw [hm] at hm'
    injection hm' with hm'
    subst hm'
    obtain ⟨r, hr, hval⟩ := (hagree e.1 e.2).mp hmem
    rw [hsame, hold] at hr
    injection hr with hr
    exact hne (by rw [← hval, hr])

theorem lookup_withoutKeys (hs : s.obj.Agrees) {id : RecordId} {old new : Record}
    (hold : s.obj.records id = some old) (h : Accepted s new (some id)) {col : Nat}
    (hcol : col ∈ s.obj.schema.indexedColumns) {m : KeyMap lost}
    (hm : (s.obj.withoutKeys id old new).indexes col = some m) :
    lookupKey (new.value col) m.entries = none := by
  obtain ⟨m₀, hm₀, -⟩ := hs.agree col hcol
  replace hm : mapIndexes (fun col m => m.remove (old.value col)) s.obj.schema.indexedColumns
    s.obj.indexes col = some m := hm
  rw [mapIndexes_of_mem hcol hm₀] at hm
  injection hm with hm
  rw [← hm]
  exact lookup_after_remove hs hold h hcol hm₀

/-- An accepted record whose keys the indexes take replaces the old one. -/
theorem update_returns (hs : s.obj.Agrees) {id : RecordId} {old : Record}
    {assignments : List (Nat × Value)} (hold : s.obj.records id = some old)
    (h : Accepted s (old.assign assignments) (some id))
    (hkeys : ∀ col ∈ s.obj.schema.indexedColumns,
      encodedValueSize ((old.assign assignments).value col) ≤ kMaxIndexKeyBytes) :
    Table.update id assignments s = .ok () (OnDisk.withIndexes
      { s with obj := s.obj.withoutKeys id old (old.assign assignments) }
      (mapIndexes (fun col m => m.put ((old.assign assignments).value col) id)
        s.obj.schema.indexedColumns
        (mapIndexes (fun col m => m.remove (old.value col)) s.obj.schema.indexedColumns
          s.obj.indexes))) := by
  rw [update_of_accepted hs hold h]
  refine installIntoIndexes_run (withoutKeys_opened hs.opened id old _) ?_
  intro col hcol m hm
  exact ⟨⟨accepted_not_null h col hcol, hkeys col hcol⟩, lookup_withoutKeys hs hold h hcol hm⟩

/-- The installation throws on an over-long value. -/
theorem install_overlong {t : OnDisk (KeyMap lost) (Table (KeyMap lost))} (ht : t.obj.Opened)
    (id : RecordId) {r : Record}
    (hnull : ∀ col ∈ t.obj.schema.indexedColumns, (r.value col).isNull = false) {col : Nat}
    (hcol : col ∈ t.obj.schema.indexedColumns)
    (hlong : kMaxIndexKeyBytes < encodedValueSize (r.value col)) :
    ∃ e t', installIntoIndexes id r t = .error e t' := by
  cases h : installIntoIndexes id r t with
  | error e t' => exact ⟨e, t', rfl⟩
  | ok u t' =>
    obtain ⟨m, hm⟩ := Option.isSome_iff_exists.mp (ht.isOpen col hcol)
    exact absurd (installIntoIndexes_ok ht hnull h col hcol m hm).1 (not_indexable hlong)

theorem insert_overlong {r : Record} (hs : s.obj.Agrees) (h : Accepted s r none) {col : Nat}
    (hcol : col ∈ s.obj.schema.indexedColumns)
    (hlong : kMaxIndexKeyBytes < encodedValueSize (r.value col)) :
    ∃ e s', Table.insert r s = .error e s' ∧ s'.obj.order = s.obj.order ++ [s.obj.nextId] := by
  have hopen := withRow_opened hs.opened r
  obtain ⟨e, s', hinst⟩ := install_overlong (t := { s with obj := s.obj.withRow r }) hopen
    s.obj.nextId (fun c hc => accepted_not_null h c hc) hcol hlong
  obtain ⟨⟨indexes, hs'⟩, -⟩ := installIntoIndexes_error hopen hinst
  refine ⟨e, s', ?_, by rw [hs']; rfl⟩
  rw [insert_of_accepted h, hs.fresh, Option.getD_none, bind_error hinst]

theorem update_overlong {id : RecordId} {old : Record} {assignments : List (Nat × Value)}
    (hs : s.obj.Agrees) (hold : s.obj.records id = some old)
    (h : Accepted s (old.assign assignments) (some id)) {col : Nat}
    (hcol : col ∈ s.obj.schema.indexedColumns)
    (hlong : kMaxIndexKeyBytes < encodedValueSize ((old.assign assignments).value col)) :
    ∃ e s', Table.update id assignments s = .error e s' ∧
      s'.obj.records id = some (old.assign assignments) := by
  have hopen := withoutKeys_opened hs.opened id old (old.assign assignments)
  obtain ⟨e, s', hinst⟩ := install_overlong
    (t := { s with obj := s.obj.withoutKeys id old (old.assign assignments) }) hopen
    id (fun c hc => accepted_not_null h c hc) hcol hlong
  obtain ⟨⟨indexes, hs'⟩, -⟩ := installIntoIndexes_error hopen hinst
  refine ⟨e, s', by rw [update_of_accepted hs hold h, hinst], ?_⟩
  rw [hs', OnDisk.withIndexes_records]
  exact Function.update_self ..

/-- The keys of a record in an agreeing table are keys an index takes. -/
theorem Agrees.indexable (hs : s.obj.Agrees) {id : RecordId} {r : Record}
    (hr : s.obj.records id = some r) {col : Nat} (hcol : col ∈ s.obj.schema.indexedColumns) :
    Indexable (r.value col) := by
  obtain ⟨m, -, hagree⟩ := hs.agree col hcol
  exact m.indexable _ ((hagree (r.value col) id).mpr ⟨r, hr, rfl⟩)

end Effects

/-! ### What every run keeps -/

section Runs
variable {s s' : OnDisk (KeyMap lost) (Table (KeyMap lost))}

theorem not_mem_order_of_fresh {t : Table (KeyMap lost)} (h : t.Sound) : t.nextId ∉ t.order :=
  fun hmem => absurd (h.lt_nextId _ hmem) (Nat.lt_irrefl _)

/-- An insertion that returns was accepted and its keys short. -/
theorem insert_ok (hs : s.obj.Agrees) {r : Record} {id : RecordId}
    (h : Table.insert r s = .ok id s') :
    Accepted s r none ∧ ∀ col ∈ s.obj.schema.indexedColumns,
      encodedValueSize (r.value col) ≤ kMaxIndexKeyBytes := by
  rcases accepted_or_error s r none with hacc | ⟨e, he⟩
  · refine ⟨hacc, fun col hcol => Nat.le_of_not_lt fun hlong => ?_⟩
    obtain ⟨e, s'', herr, -⟩ := insert_overlong hs hacc hcol hlong
    rw [h] at herr
    cases herr
  · rw [insert_of_rejected he] at h
    cases h

theorem update_ok (hs : s.obj.Agrees) {id : RecordId} {assignments : List (Nat × Value)}
    (h : Table.update id assignments s = .ok () s') :
    ∃ old, s.obj.records id = some old ∧ Accepted s (old.assign assignments) (some id) ∧
      ∀ col ∈ s.obj.schema.indexedColumns,
        encodedValueSize ((old.assign assignments).value col) ≤ kMaxIndexKeyBytes := by
  cases hold : s.obj.records id with
  | none =>
    rw [update_of_missing hold] at h
    cases h
  | some old =>
    refine ⟨old, rfl, ?_⟩
    rcases accepted_or_error s (old.assign assignments) (some id) with hacc | ⟨e, he⟩
    · refine ⟨hacc, fun col hcol => Nat.le_of_not_lt fun hlong => ?_⟩
      obtain ⟨e, s'', herr, -⟩ := update_overlong hs hold hacc hcol hlong
      rw [h] at herr
      cases herr
    · rw [update_of_rejected hold he] at h
      cases h

/-- The table with a record more, in the indexes too. -/
def inserted (t : Table (KeyMap lost)) (r : Record) : Table (KeyMap lost) :=
  { t.withRow r with
    indexes := mapIndexes (fun col m => m.put (r.value col) t.nextId) t.schema.indexedColumns
      t.indexes }

/-- The table with a record changed, in the indexes too. -/
def updated (t : Table (KeyMap lost)) (id : RecordId) (old new : Record) : Table (KeyMap lost) :=
  { t with
    records := Function.update t.records id (some new)
    indexes := mapIndexes (fun col m => (m.remove (old.value col)).put (new.value col) id)
      t.schema.indexedColumns t.indexes }

theorem mem_put {m : KeyMap lost} {key : Value} {id : RecordId} (hkey : Indexable key)
    (habs : lookupKey key m.entries = none) (v : Value) (i : RecordId) :
    (v, i) ∈ (m.put key id).entries ↔ (v, i) = (key, id) ∨ (v, i) ∈ m.entries := by
  rw [KeyMap.put, dif_pos hkey]
  exact mem_insertEntry_of_absent (lookupKey_eq_none.mp habs)

theorem inserted_sound (hs : s.obj.Sound) {r : Record} (hacc : Accepted s r none)
    (hkeys : ∀ col ∈ s.obj.schema.indexedColumns,
      encodedValueSize (r.value col) ≤ kMaxIndexKeyBytes) : (s.obj.inserted r).Sound := by
  have hrec : ∀ id, (s.obj.inserted r).records id =
      if id = s.obj.nextId then some r else s.obj.records id := by
    intro id
    show Function.update s.obj.records s.obj.nextId _ id = _
    rw [hs.fresh, Option.getD_none, Function.update_apply]
  have hlt : ∀ id, (s.obj.records id).isSome = true → id < s.obj.nextId := fun id hid =>
    hs.lt_nextId id ((hs.mem_order id).mpr hid)
  refine {
    bound := hs.bound
    fresh := ?_
    agree := ?_
    typed := ?_
    order_nodup := ?_
    mem_order := ?_
    lt_nextId := ?_
    conforming := ?_ }
  · show (s.obj.inserted r).records (s.obj.nextId + 1) = none
    rw [hrec, if_neg (Nat.succ_ne_self _)]
    cases h : s.obj.records (s.obj.nextId + 1) with
    | none => rfl
    | some x => exact absurd (hlt _ (by rw [h]; rfl)) (Nat.not_lt.mpr (Nat.le_succ _))
  · intro col hcol
    obtain ⟨m, hm, hagree⟩ := hs.agree col hcol
    have hkey : Indexable (r.value col) := ⟨accepted_not_null hacc col hcol, hkeys col hcol⟩
    have habs : lookupKey (r.value col) m.entries = none := by
      rcases accepted_lookup hs.toAgrees hacc hcol hm with h | h <;> exact h
    refine ⟨m.put (r.value col) s.obj.nextId, ?_, ?_⟩
    · simp only [inserted]
      exact mapIndexes_of_mem hcol hm
    · intro v id
      rw [mem_put hkey habs, hagree, hrec]
      by_cases hid : id = s.obj.nextId
      · subst hid
        rw [if_pos rfl, hs.fresh]
        simp [eq_comm]
      · rw [if_neg hid]
        simp [hid]
  · intro col c hc hidx id x hx
    rw [hrec] at hx
    split at hx
    · injection hx with hx
      exact hx ▸ (accepted_conforming hacc).hasType hc hidx
    · exact hs.typed col c hc hidx id x hx
  · exact List.nodup_append.mpr ⟨hs.order_nodup, by simp, by
      rintro a ha b hb rfl
      exact not_mem_order_of_fresh hs (List.mem_singleton.mp hb ▸ ha)⟩
  · intro id
    show id ∈ s.obj.order ++ [s.obj.nextId] ↔ _
    rw [hrec, List.mem_append, List.mem_singleton, hs.mem_order]
    by_cases hid : id = s.obj.nextId
    · simp [hid]
    · simp [hid]
  · intro id hid
    show id < s.obj.nextId + 1
    rcases List.mem_append.mp (show id ∈ s.obj.order ++ [s.obj.nextId] from hid) with h | h
    · exact Nat.lt_succ_of_lt (hs.lt_nextId id h)
    · exact List.mem_singleton.mp h ▸ Nat.lt_succ_self _
  · intro id x hx
    rw [hrec] at hx
    split at hx
    · injection hx with hx
      exact hx ▸ accepted_conforming hacc
    · exact hs.conforming id x hx

theorem updated_records {t : Table (KeyMap lost)} (id : RecordId) (old new : Record) (i : RecordId) :
    (t.updated id old new).records i = if i = id then some new else t.records i :=
  Function.update_apply ..

/-- A change of a record that was accepted keeps the indexes in agreement. -/
theorem updated_agrees (hs : s.obj.Agrees) {id : RecordId} {old new : Record}
    (hold : s.obj.records id = some old) (hacc : Accepted s new (some id))
    (hkeys : ∀ col ∈ s.obj.schema.indexedColumns,
      encodedValueSize (new.value col) ≤ kMaxIndexKeyBytes) : (s.obj.updated id old new).Agrees := by
  have hnext : s.obj.nextId ≠ id := by
    rintro rfl
    rw [hs.fresh] at hold
    cases hold
  refine {
    bound := hs.bound
    fresh := ?_
    agree := ?_
    typed := ?_ }
  · show (s.obj.updated id old new).records s.obj.nextId = none
    rw [updated_records, if_neg hnext, hs.fresh]
  · intro col hcol
    obtain ⟨m, hm, hagree⟩ := hs.agree col hcol
    have hkey : Indexable (new.value col) := ⟨accepted_not_null hacc col hcol, hkeys col hcol⟩
    have habs : lookupKey (new.value col) (m.remove (old.value col)).entries = none :=
      lookup_after_remove hs hold hacc hcol hm
    refine ⟨(m.remove (old.value col)).put (new.value col) id, ?_, ?_⟩
    · simp only [updated]
      exact mapIndexes_of_mem hcol hm
    · intro v i
      rw [mem_put hkey habs, updated_records]
      show _ ∨ (v, i) ∈ eraseKey (old.value col) m.entries ↔ _
      rw [mem_eraseKey, hagree]
      by_cases hi : i = id
      · subst hi
        rw [if_pos rfl, hold]
        simp only [Option.some.injEq, exists_eq_left', Prod.mk.injEq, and_true]
        constructor
        · rintro (h | ⟨h, hne⟩)
          · exact h.symm
          · exact absurd h.symm hne
        · exact fun h => .inl h.symm
      · rw [if_neg hi]
        simp only [Prod.mk.injEq, hi, and_false, false_or]
        constructor
        · exact fun h => h.1
        · rintro ⟨r, hr, hval⟩
          refine ⟨⟨r, hr, hval⟩, fun hv => hi ?_⟩
          have h₁ : (v, i) ∈ m.entries := (hagree v i).mpr ⟨r, hr, hval⟩
          have h₂ : (v, id) ∈ m.entries := (hagree v id).mpr ⟨old, hold, hv.symm⟩
          exact congrArg Prod.snd (m.sorted.eq_of_key h₁ h₂ rfl)
  · intro col c hc hidx i x hx
    rw [updated_records] at hx
    split at hx
    · injection hx with hx
      exact hx ▸ (accepted_conforming hacc).hasType hc hidx
    · exact hs.typed col c hc hidx i x hx

theorem updated_sound (hs : s.obj.Sound) {id : RecordId} {old new : Record}
    (hold : s.obj.records id = some old) (hacc : Accepted s new (some id))
    (hkeys : ∀ col ∈ s.obj.schema.indexedColumns,
      encodedValueSize (new.value col) ≤ kMaxIndexKeyBytes) : (s.obj.updated id old new).Sound := by
  refine {
    toAgrees := updated_agrees hs.toAgrees hold hacc hkeys
    order_nodup := hs.order_nodup
    mem_order := ?_
    lt_nextId := hs.lt_nextId
    conforming := ?_ }
  · intro i
    rw [updated_records]
    by_cases hi : i = id
    · subst hi
      rw [if_pos rfl]
      exact iff_of_true ((hs.mem_order i).mpr (by rw [hold]; rfl)) rfl
    · rw [if_neg hi]
      exact hs.mem_order i
  · intro i x hx
    rw [updated_records] at hx
    split at hx
    · injection hx with hx
      exact hx ▸ accepted_conforming hacc
    · exact hs.conforming i x hx

theorem withoutRow_sound (hs : s.obj.Sound) {id : RecordId} {r : Record}
    (hr : s.obj.records id = some r) : (s.obj.withoutRow id r).Sound := by
  have hrec : ∀ i, (s.obj.withoutRow id r).records i =
      if i = id then none else s.obj.records i := fun i => Function.update_apply ..
  refine {
    bound := hs.bound
    fresh := ?_
    agree := ?_
    typed := ?_
    order_nodup := hs.order_nodup.erase id
    mem_order := ?_
    lt_nextId := fun i hi => hs.lt_nextId i (List.mem_of_mem_erase hi)
    conforming := ?_ }
  · show (s.obj.withoutRow id r).records s.obj.nextId = none
    rw [hrec, hs.fresh, ite_self]
  · intro col hcol
    obtain ⟨m, hm, hagree⟩ := hs.agree col hcol
    refine ⟨m.remove (r.value col), ?_, ?_⟩
    · simp only [withoutRow]
      exact mapIndexes_of_mem hcol hm
    · intro v i
      show (v, i) ∈ eraseKey (r.value col) m.entries ↔ _
      rw [mem_eraseKey, hagree, hrec]
      by_cases hi : i = id
      · subst hi
        rw [if_pos rfl, hr]
        simp [eq_comm]
      · rw [if_neg hi]
        constructor
        · exact fun h => h.1
        · rintro ⟨x, hx, hval⟩
          refine ⟨⟨x, hx, hval⟩, fun hv => hi ?_⟩
          have h₁ : (v, i) ∈ m.entries := (hagree v i).mpr ⟨x, hx, hval⟩
          have h₂ : (v, id) ∈ m.entries := (hagree v id).mpr ⟨r, hr, hv.symm⟩
          exact congrArg Prod.snd (m.sorted.eq_of_key h₁ h₂ rfl)
  · intro col c hc hidx i x hx
    rw [hrec] at hx
    split at hx
    · cases hx
    · exact hs.typed col c hc hidx i x hx
  · intro i
    show i ∈ s.obj.order.erase id ↔ _
    rw [hs.order_nodup.mem_erase_iff, hrec, hs.mem_order]
    by_cases hi : i = id
    · simp [hi]
    · simp [hi]
  · intro i x hx
    rw [hrec] at hx
    split at hx
    · cases hx
    · exact hs.conforming i x hx

/-- What a row operation that returns has done: the table it leaves, and the files. -/
theorem insert_step (hs : s.obj.Agrees) {r : Record} {id : RecordId}
    (h : Table.insert r s = .ok id s') :
    Accepted s r none ∧ id = s.obj.nextId ∧ s' = { s with obj := s.obj.inserted r } := by
  obtain ⟨hacc, hkeys⟩ := insert_ok hs h
  rw [insert_returns hs hacc hkeys] at h
  injection h with hid hs'
  exact ⟨hacc, hid.symm, hs'.symm⟩

theorem update_step (hs : s.obj.Agrees) {id : RecordId} {assignments : List (Nat × Value)}
    (h : Table.update id assignments s = .ok () s') :
    ∃ old, s.obj.records id = some old ∧ Accepted s (old.assign assignments) (some id) ∧
      s' = { s with obj := s.obj.updated id old (old.assign assignments) } := by
  obtain ⟨old, hold, hacc, hkeys⟩ := update_ok hs h
  rw [update_returns hs hold hacc hkeys, mapIndexes_mapIndexes] at h
  injection h with _ hs'
  exact ⟨old, hold, hacc, hs'.symm⟩

theorem erase_step (hs : s.obj.Agrees) {id : RecordId} (h : Table.erase id s = .ok () s') :
    (s.obj.records id = none ∧ s' = s) ∨
      ∃ r, s.obj.records id = some r ∧ s' = { s with obj := s.obj.withoutRow id r } := by
  cases hr : s.obj.records id with
  | none =>
    rw [erase_of_missing hr] at h
    injection h with _ hs'
    exact .inl ⟨rfl, hs'.symm⟩
  | some r =>
    rw [erase_of_present hs hr] at h
    injection h with _ hs'
    exact .inr ⟨r, rfl, hs'.symm⟩

/-- One operation keeps the table sound, and an id it gives is the next one. -/
theorem RowOp.step_sound (hs : s.obj.Sound) {op : RowOp} {given : Option RecordId}
    (h : op.run s = .ok given s') :
    s'.obj.Sound ∧ s'.obj.schema = s.obj.schema ∧
      (given = none ∧ s'.obj.nextId = s.obj.nextId ∨
        given = some s.obj.nextId ∧ s'.obj.nextId = s.obj.nextId + 1) := by
  cases op with
  | insert record =>
    obtain ⟨id, t, hrun, hret⟩ := bind_eq_ok.mp h
    injection hret with hgiven ht
    subst hgiven ht
    have hkeys := (insert_ok hs.toAgrees hrun).2
    obtain ⟨hacc, rfl, rfl⟩ := insert_step hs.toAgrees hrun
    exact ⟨inserted_sound hs hacc hkeys, rfl, .inr ⟨rfl, rfl⟩⟩
  | update id assignments =>
    obtain ⟨u, t, hrun, hret⟩ := bind_eq_ok.mp h
    injection hret with hgiven ht
    subst hgiven ht
    obtain ⟨old, hold, hacc, hkeys⟩ := update_ok hs.toAgrees hrun
    obtain ⟨old', hold', -, rfl⟩ := update_step hs.toAgrees hrun
    rw [hold] at hold'
    injection hold' with hold'
    subst hold'
    exact ⟨updated_sound hs hold hacc hkeys, rfl, .inl ⟨rfl, rfl⟩⟩
  | erase id =>
    obtain ⟨u, t, hrun, hret⟩ := bind_eq_ok.mp h
    injection hret with hgiven ht
    subst hgiven ht
    rcases erase_step hs.toAgrees hrun with ⟨-, rfl⟩ | ⟨r, hr, rfl⟩
    · exact ⟨hs, rfl, .inl ⟨rfl, rfl⟩⟩
    · exact ⟨withoutRow_sound hs hr, rfl, .inl ⟨rfl, rfl⟩⟩

/-- A run of row operations, with the ids it gives. -/
def runOps : List RowOp → TableM (KeyMap lost) (List RecordId)
  | [] => return []
  | op :: ops => do
    let given ← op.run
    let rest ← runOps ops
    return given.toList ++ rest

theorem runOps_sound (hs : s.obj.Sound) {ops : List RowOp} {given : List RecordId}
    (h : runOps ops s = .ok given s') :
    s'.obj.Sound ∧ s'.obj.schema = s.obj.schema ∧ s.obj.nextId ≤ s'.obj.nextId ∧ given.Nodup ∧
      ∀ id ∈ given, s.obj.nextId ≤ id ∧ id < s'.obj.nextId := by
  induction ops generalizing s given with
  | nil =>
    injection h with hgiven hs'
    subst hgiven hs'
    exact ⟨hs, rfl, Nat.le_refl _, List.nodup_nil, by simp⟩
  | cons op ops ih =>
    obtain ⟨first, t, hop, h⟩ := bind_eq_ok.mp h
    obtain ⟨rest, t', hrest, hret⟩ := bind_eq_ok.mp h
    injection hret with hgiven hs'
    subst hgiven hs'
    obtain ⟨ht, hschema, hfirst⟩ := RowOp.step_sound hs hop
    obtain ⟨hs', hschema', hle, hnd, hrange⟩ := ih ht hrest
    refine ⟨hs', hschema'.trans hschema, ?_⟩
    rcases hfirst with ⟨rfl, hnext⟩ | ⟨rfl, hnext⟩
    · rw [hnext] at hle hrange
      exact ⟨hle, hnd, hrange⟩
    · have hlt : s.obj.nextId < t'.obj.nextId :=
        Nat.lt_of_lt_of_le (hnext ▸ Nat.lt_succ_self _) hle
      refine ⟨hlt.le, List.nodup_cons.mpr ⟨fun hmem => ?_, hnd⟩, ?_⟩
      · have hge := (hrange _ hmem).1
        rw [hnext] at hge
        exact absurd hge (Nat.not_succ_le_self _)
      · intro id hid
        rcases List.mem_cons.mp hid with rfl | hid
        · exact ⟨Nat.le_refl _, hlt⟩
        · have hr := hrange id hid
          rw [hnext] at hr
          exact ⟨(Nat.le_succ _).trans hr.1, hr.2⟩

end Runs

/-! ### From an empty table -/

section Start
variable (lost) (name : Str) (schema : TableSchema) (datPath : Path)

/-- A table with no records over an empty index for each column of a list. -/
def emptyTable (cols : List Nat) : Table (KeyMap lost) :=
  { name, schema, datPath := some datPath
    indexes := fun col => if col ∈ cols then some KeyMap.empty else none }

theorem emptyTable_sound : (emptyTable lost name schema datPath
    schema.indexedColumns).Sound where
  bound := rfl
  fresh := rfl
  agree col hcol := by
    refine ⟨KeyMap.empty, if_pos hcol, fun v id => ?_⟩
    simp [KeyMap.empty, emptyTable]
  typed _ _ _ _ _ _ h := by cases h
  order_nodup := List.nodup_nil
  mem_order id := by simp [emptyTable]
  lt_nextId _ h := by cases h
  conforming _ _ h := by cases h

variable {lost} in
/-- No index file of the table holds a pair. -/
def NoIndexes (fs : FileSystem (KeyMap lost)) (datPath : Path) : Prop :=
  ∀ col, fs.read (datPath.indexFile col) = none ∨
    fs.read (datPath.indexFile col) = some (.index (KeyMap.empty : KeyMap lost))

variable {lost} in
theorem NoIndexes.write {fs : FileSystem (KeyMap lost)} {datPath : Path}
    (h : NoIndexes fs datPath) (col : Nat) :
    NoIndexes (fs.write (datPath.indexFile col) (.index (KeyMap.empty : KeyMap lost))) datPath := by
  intro c
  by_cases hc : datPath.indexFile c = datPath.indexFile col
  · rw [hc, FileSystem.read_write_self]
    exact .inr rfl
  · rw [FileSystem.read_write_ne _ _ hc]
    exact h c

/-- An index of a new table is opened, and is empty. -/
theorem openIndex_run {fs : FileSystem (KeyMap lost)} (hfs : NoIndexes fs datPath)
    (cols : List Nat) (col : Nat) : ∃ fs', NoIndexes fs' datPath ∧
      openIndex datPath col ⟨emptyTable lost name schema datPath cols, fs⟩ =
        .ok () ⟨emptyTable lost name schema datPath (cols ++ [col]), fs'⟩ := by
  by_cases hmem : col ∈ cols
  · refine ⟨fs, hfs, ?_⟩
    have hopen : ((emptyTable lost name schema datPath cols).indexes col).isSome = true := by
      simp [emptyTable, hmem]
    have hsame : ∀ c, (c ∈ cols ++ [col]) = (c ∈ cols) := by
      intro c
      simp only [List.mem_append, List.mem_singleton, eq_iff_iff, or_iff_left_iff_imp]
      rintro rfl
      exact hmem
    rw [openIndex, getObj_bind_apply, if_pos hopen, pure_apply]
    simp only [emptyTable, hsame]
  · have hclosed : ¬ ((emptyTable lost name schema datPath cols).indexes col).isSome =
        true := by simp [emptyTable, hmem]
    have hindexes : Function.update (emptyTable lost name schema datPath cols).indexes col
        (some KeyMap.empty) = (emptyTable lost name schema datPath (cols ++ [col])).indexes := by
      funext c
      by_cases hc : c = col
      · subst hc
        simp [emptyTable]
      · simp [emptyTable, hc]
    have hstate : (⟨{ emptyTable lost name schema datPath cols with
        indexes := Function.update (emptyTable lost name schema datPath cols).indexes col
          (some KeyMap.empty) }, fs.write (datPath.indexFile col) (.index (KeyMap.empty : KeyMap lost))⟩ :
        OnDisk (KeyMap lost) (Table (KeyMap lost))) =
        ⟨emptyTable lost name schema datPath (cols ++ [col]),
          fs.write (datPath.indexFile col) (.index (KeyMap.empty : KeyMap lost))⟩ := by
      rw [hindexes]
      rfl
    refine ⟨_, hfs.write col, ?_⟩
    rw [openIndex, getObj_bind_apply, if_neg hclosed]
    simp only [getFs_bind_apply]
    rcases hfs col with hnone | hempty
    · rw [hnone]
      exact congrArg (EStateM.Result.ok ()) hstate
    · rw [hempty]
      exact congrArg (EStateM.Result.ok ()) hstate

theorem openIndexes_new (cols done : List Nat) {fs : FileSystem (KeyMap lost)}
    (hfs : NoIndexes fs datPath) : ∃ fs',
      eachColumn (openIndex datPath) cols ⟨emptyTable lost name schema datPath done, fs⟩ =
        .ok () ⟨emptyTable lost name schema datPath (done ++ cols), fs'⟩ := by
  induction cols generalizing done fs with
  | nil => exact ⟨fs, by rw [List.append_nil]; rfl⟩
  | cons col cols ih =>
    obtain ⟨fs₁, hfs₁, hstep⟩ := openIndex_run lost name schema datPath hfs done col
    obtain ⟨fs₂, hrest⟩ := ih (done ++ [col]) hfs₁
    exact ⟨fs₂, by rw [eachColumn, bind_ok hstep, hrest, List.append_assoc]; rfl⟩

/-- Binding a new table opens an empty index for every indexed column. -/
theorem bindDatPath_new {fs : FileSystem (KeyMap lost)} (hfs : NoIndexes fs datPath) :
    ∃ fs', bindDatPath datPath ⟨{ name, schema }, fs⟩ =
      .ok () ⟨emptyTable lost name schema datPath schema.indexedColumns, fs'⟩ :=
  openIndexes_new lost name schema datPath schema.indexedColumns [] hfs

end Start

/-- Two records of one indexed value are one. -/
theorem Agrees.value_injective {t : Table (KeyMap lost)} (h : t.Agrees) {col : Nat}
    (hcol : col ∈ t.schema.indexedColumns) {i j : RecordId} {r r' : Record}
    (hi : t.records i = some r) (hj : t.records j = some r') (hv : r.value col = r'.value col) :
    i = j := by
  obtain ⟨m, -, hagree⟩ := h.agree col hcol
  have h₁ : (r.value col, i) ∈ m.entries := (hagree _ _).mpr ⟨r, hi, rfl⟩
  have h₂ : (r.value col, j) ∈ m.entries := (hagree _ _).mpr ⟨r', hj, hv.symm⟩
  exact congrArg Prod.snd (m.sorted.eq_of_key h₁ h₂ rfl)

/-- An id in an index is a record's. -/
theorem Agrees.mem_records {t : Table (KeyMap lost)} (h : t.Agrees) {col : Nat}
    (hcol : col ∈ t.schema.indexedColumns) {m : KeyMap lost} (hm : t.indexes col = some m) :
    ∀ e ∈ m.entries, (t.records e.2).isSome = true := by
  intro e he
  obtain ⟨m', hm', hagree⟩ := h.agree col hcol
  rw [hm] at hm'
  injection hm' with hm'
  subst hm'
  obtain ⟨r, hr, -⟩ := (hagree e.1 e.2).mp he
  rw [hr]
  rfl

/-- In every run of row operations on a new table, as long as they return: the table
is sound, so that no two records share an indexed value and an index knows records
only; no id is given twice, and all ids given are below the next one. -/
theorem run_sound {name : Str} {schema : TableSchema} {datPath : Path}
    {fs : FileSystem (KeyMap lost)} (hfs : NoIndexes fs datPath)
    {s₀ s : OnDisk (KeyMap lost) (Table (KeyMap lost))}
    (hbind : bindDatPath datPath ⟨{ name, schema }, fs⟩ = .ok () s₀)
    {ops : List RowOp} {given : List RecordId} (hrun : runOps ops s₀ = .ok given s) :
    s.obj.Sound ∧ s.obj.schema = schema ∧ given.Nodup ∧ (∀ id ∈ given, id < s.obj.nextId) ∧
      (∀ col ∈ schema.indexedColumns, ∀ i j r r', s.obj.records i = some r →
        s.obj.records j = some r' → r.value col = r'.value col → i = j) ∧
      ∀ col ∈ schema.indexedColumns, ∀ m, s.obj.indexes col = some m →
        ∀ e ∈ m.entries, (s.obj.records e.2).isSome = true := by
  obtain ⟨fs', hnew⟩ := bindDatPath_new lost name schema datPath hfs
  rw [hbind] at hnew
  injection hnew with _ hs₀
  subst hs₀
  obtain ⟨hsound, hschema, -, hnd, hids⟩ := runOps_sound
    (s := ⟨emptyTable lost name schema datPath schema.indexedColumns, fs'⟩)
    (emptyTable_sound lost name schema datPath) hrun
  refine ⟨hsound, hschema, hnd, fun id hid => (hids id hid).2, ?_, ?_⟩
  · intro col hcol i j r r' hi hj
    exact hsound.value_injective (hschema.symm ▸ hcol) hi hj
  · intro col hcol m hm
    exact hsound.mem_records (hschema.symm ▸ hcol) hm

/-! ### A table of one indexed column -/

section OneColumn

def oneColumn (type : DataType) : TableSchema :=
  { columns := [{ name := Str.ofString "k", type, indexed := true }] }

def oneColumnPath : Path := ⟨Str.ofString "d", Str.ofString "t.dat"⟩

/-- The table, new and bound. -/
def oneColumnTable (type : DataType) : OnDisk (KeyMap .nowhere) (Table (KeyMap .nowhere)) :=
  ⟨emptyTable .nowhere (Str.ofString "t") (oneColumn type) oneColumnPath (oneColumn type).indexedColumns, ∅⟩

def oneColumnRun : List RowOp :=
  [.insert ⟨[.int 5]⟩, .insert ⟨[.int 3]⟩, .update 1 [(0, .int 7)], .erase 2]

theorem run_sound_oneColumn : ∃ s₀ given s,
    bindDatPath oneColumnPath ⟨{ name := Str.ofString "t", schema := oneColumn .int }, ∅⟩ =
      .ok () s₀ ∧
    runOps oneColumnRun s₀ = .ok given s ∧
    (s : OnDisk (KeyMap .nowhere) (Table (KeyMap .nowhere))).obj.Sound ∧ given.Nodup := by
  have hfs : NoIndexes (∅ : FileSystem (KeyMap .nowhere)) oneColumnPath := fun _ => .inl rfl
  have hreturns : (match bindDatPath (ι := KeyMap .nowhere) oneColumnPath
      ⟨{ name := Str.ofString "t", schema := oneColumn .int }, ∅⟩ with
      | .ok _ s₀ => returned (runOps oneColumnRun s₀)
      | .error _ _ => false) = true := by decide +kernel
  obtain ⟨fs', hbind⟩ := bindDatPath_new .nowhere (Str.ofString "t") (oneColumn .int) oneColumnPath hfs
  rw [hbind] at hreturns
  obtain ⟨given, s, hrun⟩ := returned_iff.mp hreturns
  obtain ⟨hsound, -, hnd, -⟩ := run_sound hfs hbind hrun
  exact ⟨_, given, s, hbind, hrun, hsound, hnd⟩

/-- The table with one row. -/
def oneRowTable : OnDisk (KeyMap .nowhere) (Table (KeyMap .nowhere)) :=
  { oneColumnTable .int with obj := (oneColumnTable .int).obj.inserted ⟨[.int 5]⟩ }

theorem accepted_of_returned {lost : Lost} {s : OnDisk (KeyMap lost) (Table (KeyMap lost))}
    {r : Record} {existing : Option RecordId}
    (h : returned (enforceConstraints r existing s) = true) : Accepted s r existing := by
  rcases accepted_or_error s r existing with hacc | ⟨e, he⟩
  · exact hacc
  · rw [he] at h
    cases h

theorem oneRowTable_sound : oneRowTable.obj.Sound :=
  inserted_sound (emptyTable_sound ..) (accepted_of_returned (by decide +kernel)) (by decide)

end OneColumn
end Table
end CwDb.Storage
