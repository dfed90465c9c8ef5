import CwDb.Storage.DiskMirror
import CwDb.Storage.TableInvariant

/-! A table over any index that tracks a map, beside the table over the ideal index.

Two tables mirror each other when they differ in their indexes only, and the index of each
column tracks the ideal one (`Mirrors`). Every row operation then has the same outcome
on both and keeps them mirrors, as long as the indexes have room: what holds of tables over
the ideal index holds of tables over the other. -/
namespace CwDb.Storage
open Foundation DiskM

namespace Table

section Mirroring
variable {ι : Type} [TableIndex ι] {lost : Lost} {T : Tracking ι lost} {t : Table ι}
  {u : Table (KeyMap lost)}

/-- The same table, over indexes that track its own. -/
structure Mirrors (T : Tracking ι lost) (t : Table ι) (u : Table (KeyMap lost)) : Prop where
  name : t.name = u.name
  schema : t.schema = u.schema
  records : t.records = u.records
  order : t.order = u.order
  datPath : t.datPath = u.datPath
  nextId : t.nextId = u.nextId
  indexes : ∀ col, Option.Rel T.Rel (t.indexes col) (u.indexes col)

theorem Mirrors.opened (h : t.Mirrors T u) (hu : u.Opened) : t.Opened where
  bound := by rw [h.datPath, hu.bound]
  isOpen col hcol := by
    rw [h.schema] at hcol
    rw [rel_isSome (h.indexes col)]
    exact hu.isOpen col hcol

/-- An index of the one table, and the ideal one of the other. -/
theorem Mirrors.index (h : t.Mirrors T u) {col : Nat} {m : KeyMap lost}
    (hm : u.indexes col = some m) : ∃ d, t.indexes col = some d ∧ T.Rel d m := by
  have hrel := h.indexes col
  rw [hm] at hrel
  exact rel_some hrel

theorem Mirrors.columnIsIndexed (h : t.Mirrors T u) (col : Nat) :
    t.columnIsIndexed col = u.columnIsIndexed col := by
  rw [Table.columnIsIndexed, Table.columnIsIndexed, h.schema]

theorem Mirrors.columnName (h : t.Mirrors T u) (col : Nat) : t.columnName col = u.columnName col := by
  rw [Table.columnName, Table.columnName, h.schema]

/-- One index each, changed alike. -/
theorem Mirrors.update (h : t.Mirrors T u) (col : Nat) {d : ι} {m : KeyMap lost} (hdm : T.Rel d m) :
    Mirrors T { t with indexes := Function.update t.indexes col (some d) }
      { u with indexes := Function.update u.indexes col (some m) } where
  name := h.name
  schema := h.schema
  records := h.records
  order := h.order
  datPath := h.datPath
  nextId := h.nextId
  indexes c := by
    show Option.Rel T.Rel (Function.update t.indexes col (some d) c)
      (Function.update u.indexes col (some m) c)
    by_cases hc : c = col
    · rw [hc, Function.update_self, Function.update_self]
      exact .some hdm
    · rw [Function.update_of_ne hc, Function.update_of_ne hc]
      exact h.indexes c

/-- Other rows, the same ones on both sides. -/
theorem Mirrors.withRows (h : t.Mirrors T u) {records records' : RecordId → Option Record}
    {order order' : List RecordId} {nextId nextId' : RecordId} (hrecords : records = records')
    (horder : order = order') (hnextId : nextId = nextId') :
    Mirrors T { t with records, order, nextId }
      { u with records := records', order := order', nextId := nextId' } where
  name := h.name
  schema := h.schema
  records := hrecords
  order := horder
  datPath := h.datPath
  nextId := hnextId
  indexes := h.indexes

theorem Mirrors.withPath (h : t.Mirrors T u) (datPath : Path) :
    Mirrors T { t with datPath := some datPath } { u with datPath := some datPath } where
  name := h.name
  schema := h.schema
  records := h.records
  order := h.order
  datPath := rfl
  nextId := h.nextId
  indexes := h.indexes

/-- New tables. -/
theorem mirrors_new (T : Tracking ι lost) (name : Str) (schema : TableSchema) :
    Mirrors T { name, schema } { name, schema } :=
  ⟨rfl, rfl, rfl, rfl, rfl, rfl, fun _ => .none⟩

end Mirroring

section Running
variable {ι : Type} [TableIndex ι] {lost : Lost} {T : Tracking ι lost} {s : OnDisk ι (Table ι)}
  {v : OnDisk (KeyMap lost) (Table (KeyMap lost))} {t : Table ι} {u : Table (KeyMap lost)}

/-- Mirrors, beside files that are. -/
abbrev MirrorsOn (T : Tracking ι lost) :
    OnDisk ι (Table ι) → OnDisk (KeyMap lost) (Table (KeyMap lost)) → Prop := OnMirror T (Mirrors T)

/-- The index a lookup goes to, on both sides. -/
theorem Mirrors.indexAt (h : t.Mirrors T u) (col : Nat) :
    Option.Rel T.Rel (t.indexAt col) (u.indexAt col) := by
  rw [Table.indexAt, Table.indexAt, h.columnIsIndexed]
  have hrel := h.indexes col
  by_cases hidx : u.columnIsIndexed col = true
  · rw [if_pos hidx, if_pos hidx]
    cases hm : u.indexes col with
    | none =>
      rw [hm] at hrel
      rw [rel_none hrel]
      exact .none
    | some m =>
      obtain ⟨d, hd, hdm⟩ := h.index hm
      rw [hd]
      simp only [T.isOpen d m hdm, if_true]
      exact .some hdm
  · rw [if_neg hidx, if_neg hidx]
    exact .none

/-- The same operation on the index of a column. -/
theorem onIndex_agree {α : Type} (h : MirrorsOn T s v) (col : Nat) {d : ι} {m : KeyMap lost}
    {x : EStateM Exn ι α} {y : EStateM Exn (KeyMap lost) α} (hxy : Agree T.Rel (x d) (y m)) :
    Agree (MirrorsOn T) (onIndex col d x s) (onIndex col m y v) := by
  cases hy : y m with
  | ok a m' =>
    rw [hy] at hxy
    obtain ⟨d', hx, hdm⟩ := hxy.of_ok
    rw [onIndex_ok hx, onIndex_ok hy]
    exact .ok a ⟨h.obj.update col hdm, h.files⟩
  | error e m' =>
    rw [hy] at hxy
    obtain ⟨d', hx, hdm⟩ := hxy.of_error
    rw [onIndex_error hx, onIndex_error hy]
    exact .error e ⟨h.obj.update col hdm, h.files⟩

/-! ### Loops -/

theorem eachColumn_agree {f : Nat → TableM ι Unit} {g : Nat → TableM (KeyMap lost) Unit}
    {R : OnDisk ι (Table ι) → OnDisk (KeyMap lost) (Table (KeyMap lost)) → Prop} {cols : List Nat}
    (hfg : ∀ col ∈ cols, ∀ s v, R s v → Agree R (f col s) (g col v)) :
    ∀ s v, R s v → Agree R (eachColumn f cols s) (eachColumn g cols v) := by
  induction cols with
  | nil =>
    intro s v h
    exact .ok () h
  | cons col cols ih =>
    intro s v h
    refine (hfg col List.mem_cons_self s v h).bind fun a s' v' _ h' => ?_
    exact ih (fun c hc => hfg c (List.mem_cons_of_mem col hc)) s' v' h'

/-- Two loops that do the same to the indexes of each column. -/
theorem IndexLoop.agree {f : Nat → TableM ι Unit} {x : Nat → EStateM Exn ι Unit}
    {g : Nat → TableM (KeyMap lost) Unit} {y : Nat → EStateM Exn (KeyMap lost) Unit}
    (hf : IndexLoop f x) (hg : IndexLoop g y) {cols : List Nat} (hnd : cols.Nodup)
    (h : MirrorsOn T s v) (hv : v.obj.Opened)
    (hcols : ∀ col ∈ cols, col ∈ v.obj.schema.indexedColumns)
    (hxy : ∀ col ∈ cols, ∀ d m, v.obj.indexes col = some m → T.Rel d m → Agree T.Rel (x col d) (y col m)) :
    Agree (MirrorsOn T) (eachColumn f cols s) (eachColumn g cols v) := by
  induction cols generalizing s v with
  | nil => exact .ok () h
  | cons col cols ih =>
    obtain ⟨hnot, hnd⟩ := List.nodup_cons.mp hnd
    have hcol := hcols col List.mem_cons_self
    obtain ⟨m, hm⟩ := Option.isSome_iff_exists.mp (hv.isOpen col hcol)
    obtain ⟨d, hd, hdm⟩ := h.obj.index hm
    have hcol' : col ∈ s.obj.schema.indexedColumns := by
      rw [h.obj.schema]
      exact hcol
    have hstep : Agree (MirrorsOn T) (f col s) (g col v) := by
      rw [hf s (h.obj.opened hv) col hcol' d hd, hg v hv col hcol m hm]
      exact onIndex_agree h col (hxy col List.mem_cons_self d m hm hdm)
    refine hstep.bind fun a s' v' hrun h' => ?_
    -- the round before changed the index of its own column only
    rw [hg v hv col hcol m hm] at hrun
    cases hy : y col m with
    | error e m' =>
      rw [onIndex_error hy] at hrun
      cases hrun
    | ok a' m' =>
      rw [onIndex_ok hy] at hrun
      cases hrun
      refine ih hnd h' (hv.update col m') (fun c hc => hcols c (List.mem_cons_of_mem col hc)) ?_
      intro c hc d' m'' hm'' hdm'
      have hne : c ≠ col := fun heq => hnot (heq ▸ hc)
      refine hxy c (List.mem_cons_of_mem col hc) d' m'' ?_ hdm'
      rwa [OnDisk.withIndexes_indexes, Function.update_of_ne hne] at hm''

/-! ### Opening -/

theorem openIndex_agree (h : MirrorsOn T s v) (datPath : Path) (col : Nat) :
    Agree (MirrorsOn T) (openIndex datPath col s) (openIndex datPath col v) := by
  have hopened : ∀ d m, T.Rel d m → MirrorsOn T
      ⟨{ s.obj with indexes := Function.update s.obj.indexes col (some d) },
        s.fs.write (datPath.indexFile col) (.index (TableIndex.file d))⟩
      ⟨{ v.obj with indexes := Function.update v.obj.indexes col (some m) },
        v.fs.write (datPath.indexFile col) (.index (TableIndex.file m))⟩ := fun d m hdm =>
    ⟨h.obj.update col hdm, h.files.write _ (.index (T.file d m hdm))⟩
  rw [openIndex, openIndex, getObj_bind_apply, getObj_bind_apply]
  by_cases hopen : (v.obj.indexes col).isSome = true
  · rw [if_pos hopen, if_pos (by rw [rel_isSome (h.obj.indexes col), hopen])]
    exact .ok () h
  · rw [if_neg hopen, if_neg (by rw [rel_isSome (h.obj.indexes col)]; exact hopen)]
    simp only [getFs_bind_apply]
    have hread := h.files.read (datPath.indexFile col)
    cases hv : v.fs.read (datPath.indexFile col) with
    | none =>
      rw [hv] at hread
      rw [rel_none hread]
      obtain ⟨d, hd, hdm⟩ := T.createEmpty
      rw [hd]
      exact .ok () (hopened d KeyMap.empty hdm)
    | some y =>
      rw [hv] at hread
      obtain ⟨x, hx, hxy⟩ := rel_some hread
      rw [hx]
      cases hxy with
      | bytes data => exact .error _ h
      | index hfile =>
        obtain ⟨d, hd, hdm⟩ := T.openFile (datPath.indexFile col).text _ _ hfile
        simp only [hd]
        exact .ok () (hopened d _ hdm)

theorem openIndexes_agree (h : MirrorsOn T s v) :
    Agree (MirrorsOn T) (openIndexes s) (openIndexes v) := by
  rw [openIndexes, openIndexes, getObj_bind_apply, getObj_bind_apply, h.obj.datPath,
    h.obj.schema]
  cases v.obj.datPath with
  | none => exact .ok () h
  | some datPath => exact eachColumn_agree (fun col _ _ _ h => openIndex_agree h datPath col) s v h

theorem bindDatPath_agree (h : MirrorsOn T s v) (datPath : Path) :
    Agree (MirrorsOn T) (bindDatPath datPath s) (bindDatPath datPath v) := by
  rw [bindDatPath, bindDatPath, modifyObj_bind_apply, modifyObj_bind_apply]
  exact openIndexes_agree ⟨h.obj.withPath datPath, h.files⟩

theorem flushIndexes_agree (h : MirrorsOn T s v) :
    Agree (MirrorsOn T) (flushIndexes s) (flushIndexes v) := by
  rw [flushIndexes, flushIndexes, getObj_bind_apply, getObj_bind_apply, h.obj.schema]
  refine eachColumn_agree (fun col _ s v h => ?_) s v h
  rw [flushIndex, flushIndex, getObj_bind_apply, getObj_bind_apply]
  have hrel := h.obj.indexes col
  cases hm : v.obj.indexes col with
  | none =>
    rw [hm] at hrel
    rw [rel_none hrel]
    exact .ok () h
  | some m =>
    rw [hm] at hrel
    obtain ⟨d, hd, hdm⟩ := rel_some hrel
    obtain ⟨d', hflush, hdm'⟩ := T.flush d m hdm
    have hopen : TableIndex.isOpen m = true := rfl
    rw [hd]
    simp only [T.isOpen d m hdm, hopen, if_true]
    refine onIndex_agree h col ?_
    rw [hflush]
    exact .ok () hdm'

/-! ### Lookups and checks -/

/-- What is made of the answer of an index operation. -/
theorem onIndex_map {α β : Type} (col : Nat) (disk : ι) (x : EStateM Exn ι α) (f : α → β) :
    onIndex col disk (x >>= fun a => pure (f a)) s =
      (onIndex col disk x >>= fun a => pure (f a)) s := by
  cases hx : x disk with
  | ok a d =>
    have hxf : (x >>= fun a => pure (f a)) disk = .ok (f a) d := bind_ok hx
    rw [onIndex_ok hxf, bind_ok (onIndex_ok hx), pure_apply]
  | error e d =>
    have hxf : (x >>= fun a => pure (f a)) disk = .error e d := bind_error hx
    rw [onIndex_error hxf, bind_error (onIndex_error hx)]

theorem indexFind_agree (h : MirrorsOn T s v) (col : Nat) {key : Value} (hkey : T.Key key) :
    Agree (MirrorsOn T) (indexFind col key s) (indexFind col key v) := by
  rw [indexFind, indexFind, getObj_bind_apply, getObj_bind_apply]
  have hat := h.obj.indexAt col
  cases hu : v.obj.indexAt col with
  | none =>
    rw [hu] at hat
    rw [rel_none hat]
    exact .ok none h
  | some m =>
    rw [hu] at hat
    obtain ⟨d, hd, hdm⟩ := rel_some hat
    have hfind := onIndex_agree h col (T.find d m key hdm hkey)
    rw [findPair, findPair, onIndex_map, onIndex_map] at hfind
    have hsnd := hfind.bind (f := fun p => pure (p.map Prod.snd))
      (g := fun p => pure (p.map Prod.snd)) fun p s' v' _ h' => .ok (p.map Prod.snd) h'
    rw [bind_assoc, bind_assoc] at hsnd
    rwa [hd]

theorem indexCollectRange_agree (h : MirrorsOn T s v) (col : Nat) {lo hi : Option Value}
    (loInclusive hiInclusive : Bool) (hlo : ∀ b ∈ lo, T.Key b) (hhi : ∀ b ∈ hi, T.Key b) :
    Agree (MirrorsOn T) (indexCollectRange col lo loInclusive hi hiInclusive s)
      (indexCollectRange col lo loInclusive hi hiInclusive v) := by
  rw [indexCollectRange, indexCollectRange, getObj_bind_apply, getObj_bind_apply]
  have hat := h.obj.indexAt col
  cases hu : v.obj.indexAt col with
  | none =>
    rw [hu] at hat
    rw [rel_none hat]
    exact .ok [] h
  | some m =>
    rw [hu] at hat
    obtain ⟨d, hd, hdm⟩ := rel_some hat
    rw [hd]
    exact onIndex_agree h col (T.collect d m lo loInclusive hi hiInclusive hdm hlo hhi)

theorem checkUnique_agree (h : MirrorsOn T s v) (r : Record)
    (existing : Option RecordId) (col : Nat) (hkey : T.Key (r.value col)) :
    Agree (MirrorsOn T) (checkUnique r existing col s) (checkUnique r existing col v) := by
  unfold checkUnique
  by_cases hnull : (r.value col).isNull = true
  · rw [if_pos hnull, if_pos hnull]
    exact .ok () h
  · rw [if_neg hnull, if_neg hnull]
    refine (indexFind_agree h col hkey).bind fun found s' v' _ h' => ?_
    rw [getObj_bind_apply, getObj_bind_apply, h'.obj.columnName]
    by_cases hdup : (found.isSome && found ≠ existing) = true
    · rw [if_pos hdup, if_pos hdup]
      exact .error _ h'
    · rw [if_neg hdup, if_neg hdup]
      exact .ok () h'

/-- The checks, where a record that fits the schema has keys the indexes take. -/
theorem enforceConstraints_agree (h : MirrorsOn T s v) (r : Record)
    (existing : Option RecordId)
    (hkeys : r.Conforming v.obj.schema → ∀ col ∈ v.obj.schema.indexedColumns, T.Key (r.value col)) :
    Agree (MirrorsOn T) (enforceConstraints r existing s) (enforceConstraints r existing v) := by
  rw [enforceConstraints, enforceConstraints, getObj_bind_apply, getObj_bind_apply,
    h.obj.schema]
  by_cases hlen : r.values.length = v.obj.schema.columns.length
  · rw [if_neg (not_not_intro hlen), if_neg (not_not_intro hlen)]
    cases hvalues : checkValues v.obj.schema.columns r.values with
    | error e => exact .error e h
    | ok a =>
      have hfit := hkeys (conforming_of_checks hlen hvalues)
      exact eachColumn_agree (fun col hcol s v h =>
        checkUnique_agree h r existing col (hfit col hcol)) s v h
  · rw [if_pos hlen, if_pos hlen]
    exact .error _ h

/-! ### The index loops of a row -/

theorem installIntoIndexes_agree (h : MirrorsOn T s v)
    (hv : v.obj.Opened) {id : RecordId} (hid : id < 2 ^ 64) {r : Record}
    (hkeys : ∀ col ∈ v.obj.schema.indexedColumns, T.Key (r.value col))
    (hroom : ∀ col ∈ v.obj.schema.indexedColumns, ∀ m, v.obj.indexes col = some m →
      m.entries.length < T.room) :
    Agree (MirrorsOn T) (installIntoIndexes id r s) (installIntoIndexes id r v) := by
  rw [installIntoIndexes, installIntoIndexes, getObj_bind_apply, getObj_bind_apply,
    h.obj.schema]
  refine (install_loop ι id r).agree (install_loop (KeyMap lost) id r)
    v.obj.schema.indexedColumns_nodup h hv (fun _ hcol => hcol) ?_
  intro col hcol d m hm hdm
  unfold installStep
  by_cases hnull : (r.value col).isNull = true
  · rw [if_pos hnull, if_pos hnull]
    exact .ok () hdm
  · rw [if_neg hnull, if_neg hnull]
    exact T.insert d m _ _ hdm (hkeys col hcol) hid (hroom col hcol m hm)

theorem removeFromIndexes_agree (h : MirrorsOn T s v)
    (hv : v.obj.Opened) {r : Record}
    (hkeys : ∀ col ∈ v.obj.schema.indexedColumns, T.Key (r.value col)) :
    Agree (MirrorsOn T) (removeFromIndexes r s) (removeFromIndexes r v) := by
  rw [removeFromIndexes, removeFromIndexes, getObj_bind_apply, getObj_bind_apply,
    h.obj.schema]
  refine (remove_loop ι r).agree (remove_loop (KeyMap lost) r)
    v.obj.schema.indexedColumns_nodup h hv (fun _ hcol => hcol) ?_
  intro col hcol d m hm hdm
  unfold removeStep
  by_cases hnull : (r.value col).isNull = true
  · rw [if_pos hnull, if_pos hnull]
    exact .ok () hdm
  · rw [if_neg hnull, if_neg hnull]
    exact (T.erase d m _ hdm (hkeys col hcol)).bind fun _ _ _ _ h' => .ok () h'

end Running

/-! ### Row operations -/

section Rows
variable {ι : Type} [TableIndex ι] {lost : Lost} {T : Tracking ι lost} {u : Table (KeyMap lost)}

/-- Every value of the type of an indexed column is a key. -/
def Keyed (Key : Value → Prop) (schema : TableSchema) : Prop :=
  ∀ (col : Nat) (c : ColumnDef), schema.columns[col]? = some c → c.indexed = true →
    ∀ x : Value, x.HasType c.type → Key x

/-- There is room for so many more rows, if there is an index at all. -/
def HasRoom (room n : Nat) (u : Table (KeyMap lost)) : Prop :=
  u.schema.indexedColumns ≠ [] → u.order.length + n ≤ room

/-- A sound table of keys, not larger than its indexes may get. -/
structure Kept (T : Tracking ι lost) (u : Table (KeyMap lost)) : Prop extends u.Sound where
  keyed : Keyed T.Key u.schema
  rows : u.HasRoom T.room 0
  ids : u.nextId ≤ 2 ^ 64

theorem Keyed.conforming {Key : Value → Prop} {schema : TableSchema} (h : Keyed Key schema)
    {r : Record}
    (hr : r.Conforming schema) : ∀ col ∈ schema.indexedColumns, Key (r.value col) := by
  intro col hcol
  obtain ⟨c, hc, hidx⟩ := TableSchema.mem_indexedColumns.mp hcol
  exact h col c hc hidx _ (hr.hasType hc hidx)

/-- An index has at most one pair for each row. -/
theorem Sound.index_length (h : u.Sound) {col : Nat} (hcol : col ∈ u.schema.indexedColumns)
    {m : KeyMap lost} (hm : u.indexes col = some m) : m.entries.length ≤ u.order.length := by
  obtain ⟨m', hm', hagree⟩ := h.agree col hcol
  rw [hm] at hm'
  injection hm' with hm'
  subst hm'
  have hinj : ∀ x ∈ m.entries, ∀ y ∈ m.entries, x.2 = y.2 → x = y := by
    intro x hx y hy hid
    obtain ⟨r, hr, hval⟩ := (hagree x.1 x.2).mp hx
    obtain ⟨r', hr', hval'⟩ := (hagree y.1 y.2).mp hy
    rw [hid, hr'] at hr
    injection hr with hr
    exact Prod.ext (by rw [← hval, ← hval', hr]) hid
  have hnd : (m.entries.map Prod.snd).Nodup := m.sorted.nodup.map_on hinj
  have hsub : m.entries.map Prod.snd ⊆ u.order := by
    intro id hid
    obtain ⟨e, he, rfl⟩ := List.mem_map.mp hid
    exact (h.mem_order _).mpr (h.mem_records hcol hm e he)
  rw [← List.length_map (f := Prod.snd)]
  exact List.Nodup.length_le_of_subset hnd hsub

/-- The index of a column loses a pair with each record that leaves it. -/
theorem Sound.removed_length (h : u.Sound) {id : RecordId} {r : Record} (hr : u.records id = some r)
    {col : Nat} (hcol : col ∈ u.schema.indexedColumns) {m : KeyMap lost}
    (hm : u.indexes col = some m) : (m.remove (r.value col)).entries.length < u.order.length := by
  refine lt_of_lt_of_le ?_ (h.index_length hcol hm)
  obtain ⟨m', hm', hagree⟩ := h.agree col hcol
  rw [hm] at hm'
  injection hm' with hm'
  subst hm'
  exact List.length_filter_lt_length_iff_exists.mpr
    ⟨_, (hagree _ _).mpr ⟨r, hr, rfl⟩, by simp⟩

end Rows

section Operations
variable {ι : Type} [TableIndex ι] {lost : Lost} {T : Tracking ι lost} {s : OnDisk ι (Table ι)}
  {v : OnDisk (KeyMap lost) (Table (KeyMap lost))}

theorem insert_agree (h : MirrorsOn T s v) (hv : v.obj.Kept T)
    (hroom : v.obj.HasRoom T.room 1) (hid : v.obj.nextId < 2 ^ 64) (record : Record) :
    Agree (MirrorsOn T) (Table.insert record s) (Table.insert record v) := by
  rw [Table.insert, Table.insert]
  refine (enforceConstraints_agree h record none hv.keyed.conforming).bind ?_
  intro _ s' v' hrun h'
  rcases accepted_or_error v record none with hacc | ⟨e, he⟩
  · rw [hacc] at hrun
    cases hrun
    rw [getObj_bind_apply, getObj_bind_apply, h'.obj.nextId, h'.obj.records, hv.fresh, Option.getD_none]
    have hrow : MirrorsOn T ⟨{ s'.obj with
          nextId := v.obj.nextId + 1
          records := Function.update s'.obj.records v.obj.nextId (some record)
          order := s'.obj.order ++ [v.obj.nextId] }, s'.fs⟩ ⟨v.obj.withRow record, v.fs⟩ :=
      ⟨h'.obj.withRows (by rw [h'.obj.records, hv.fresh]; rfl) (by rw [h'.obj.order]) rfl,
        h'.files⟩
    have hinstall := installIntoIndexes_agree hrow (withRow_opened hv.opened record) hid
      (hv.keyed.conforming (accepted_conforming hacc)) fun col hcol m hm =>
        (hv.index_length hcol hm).trans_lt (hroom (List.ne_nil_of_mem hcol))
    rw [withRow, hv.fresh] at hinstall
    exact hinstall.bind fun _ _ _ _ hinstalled => .ok _ hinstalled
  · rw [he] at hrun
    cases hrun

theorem update_agree (h : MirrorsOn T s v) (hv : v.obj.Kept T)
    (id : RecordId) (assignments : List (Nat × Value)) :
    Agree (MirrorsOn T) (Table.update id assignments s) (Table.update id assignments v) := by
  rw [Table.update, Table.update, getObj_bind_apply, getObj_bind_apply, h.obj.records]
  cases hold : v.obj.records id with
  | none => exact .error _ h
  | some old =>
    refine (enforceConstraints_agree h _ (some id) hv.keyed.conforming).bind ?_
    intro _ s' v' hrun h'
    rcases accepted_or_error v (old.assign assignments) (some id) with hacc | ⟨e, he⟩
    · rw [hacc] at hrun
      cases hrun
      have hremove := removeFromIndexes_agree h' hv.opened
        (hv.keyed.conforming (hv.conforming id old hold))
      refine hremove.bind ?_
      intro _ s₁ v₁ hrun₁ h₁
      rw [removeFromIndexes_run hv.toAgrees hold] at hrun₁
      cases hrun₁
      have hrow : MirrorsOn T ⟨{ s₁.obj with
            records := Function.update s₁.obj.records id (some (old.assign assignments)) }, s₁.fs⟩
          ⟨v.obj.withoutKeys id old (old.assign assignments), v.fs⟩ :=
        ⟨h₁.obj.withRows (by rw [h₁.obj.records]; rfl) h₁.obj.order h₁.obj.nextId, h₁.files⟩
      have hlt : id < v.obj.nextId := hv.lt_nextId id ((hv.mem_order id).mpr (by rw [hold]; rfl))
      refine installIntoIndexes_agree hrow (withoutKeys_opened hv.opened id old _)
        (hlt.trans_le hv.ids) (hv.keyed.conforming (accepted_conforming hacc)) ?_
      intro col hcol m hm
      replace hcol : col ∈ v.obj.schema.indexedColumns := hcol
      obtain ⟨m₀, hm₀, -⟩ := hv.agree col hcol
      have hm' : mapIndexes (fun col m => m.remove (old.value col)) v.obj.schema.indexedColumns
        v.obj.indexes col = some m := hm
      rw [mapIndexes_of_mem hcol hm₀] at hm'
      injection hm' with hm'
      rw [← hm']
      exact (hv.removed_length hold hcol hm₀).trans_le (hv.rows (List.ne_nil_of_mem hcol))
    · rw [he] at hrun
      cases hrun

theorem erase_agree (h : MirrorsOn T s v) (hv : v.obj.Kept T)
    (id : RecordId) : Agree (MirrorsOn T) (Table.erase id s) (Table.erase id v) := by
  rw [Table.erase, Table.erase, getObj_bind_apply, getObj_bind_apply, h.obj.records]
  cases hr : v.obj.records id with
  | none => exact .ok () h
  | some r =>
    refine (removeFromIndexes_agree h hv.opened
      (hv.keyed.conforming (hv.conforming id r hr))).bind ?_
    intro _ s' v' _ h'
    exact .ok () ⟨h'.obj.withRows (by rw [h'.obj.records]) (by rw [h'.obj.order])
      h'.obj.nextId, h'.files⟩

/-! ### Runs -/

/-- Room for the record of an insertion, and an id for it. -/
def RowOp.Roomy (room : Nat) (u : Table (KeyMap lost)) : RowOp → Prop
  | .insert _ => u.order.length < room ∧ u.nextId < 2 ^ 64
  | .update _ _ => True
  | .erase _ => True

theorem RowOp.agree (h : MirrorsOn T s v) (hv : v.obj.Kept T) (op : RowOp)
    (hop : op.Roomy T.room v.obj) : Agree (MirrorsOn T) (op.run s) (op.run v) := by
  cases op with
  | insert record =>
    exact (insert_agree h hv (fun _ => hop.1) hop.2 record).bind fun _ _ _ _ h' => .ok _ h'
  | update id assignments =>
    exact (update_agree h hv id assignments).bind fun _ _ _ _ h' => .ok _ h'
  | erase id => exact (erase_agree h hv id).bind fun _ _ _ _ h' => .ok _ h'

theorem Kept.inserted (hv : v.obj.Kept T)
    (hroom : v.obj.HasRoom T.room 1) (hid : v.obj.nextId < 2 ^ 64) {record : Record}
    (hacc : Accepted v record none) :
    Table.insert record v = .ok v.obj.nextId ⟨v.obj.inserted record, v.fs⟩ ∧
      (v.obj.inserted record).Kept T := by
  have hkeys : ∀ col ∈ v.obj.schema.indexedColumns,
      encodedValueSize (record.value col) ≤ kMaxIndexKeyBytes := fun col hcol =>
    T.short _ (hv.keyed.conforming (accepted_conforming hacc) col hcol)
  refine ⟨insert_returns hv.toAgrees hacc hkeys, ?_⟩
  exact {
    toSound := inserted_sound hv.toSound hacc hkeys
    keyed := hv.keyed
    rows := fun hindexed => (List.length_append ..).trans_le (hroom hindexed)
    ids := hid }

theorem Kept.updated (hv : v.obj.Kept T) {id : RecordId}
    {old : Record} {assignments : List (Nat × Value)} (hold : v.obj.records id = some old)
    (hacc : Accepted v (old.assign assignments) (some id)) :
    Table.update id assignments v =
        .ok () ⟨v.obj.updated id old (old.assign assignments), v.fs⟩ ∧
      (v.obj.updated id old (old.assign assignments)).Kept T := by
  have hkeys : ∀ col ∈ v.obj.schema.indexedColumns,
      encodedValueSize ((old.assign assignments).value col) ≤ kMaxIndexKeyBytes := fun col hcol =>
    T.short _ (hv.keyed.conforming (accepted_conforming hacc) col hcol)
  refine ⟨?_, ?_⟩
  · rw [update_returns hv.toAgrees hold hacc hkeys, mapIndexes_mapIndexes]
    rfl
  · exact {
      toSound := updated_sound hv.toSound hold hacc hkeys
      keyed := hv.keyed
      rows := hv.rows
      ids := hv.ids }

theorem Kept.withoutRow (hv : v.obj.Kept T) {id : RecordId} {r : Record}
    (hr : v.obj.records id = some r) : (v.obj.withoutRow id r).Kept T where
  toSound := withoutRow_sound hv.toSound hr
  keyed := hv.keyed
  rows hindexed := (List.length_erase_le ..).trans (hv.rows hindexed)
  ids := hv.ids

/-! Whether it returns or throws, a row operation keeps the table. -/

theorem insert_kept (hv : v.obj.Kept T) (hroom : v.obj.HasRoom T.room 1)
    (hid : v.obj.nextId < 2 ^ 64) (record : Record) :
    (stateOf (Table.insert record v)).obj.Kept T := by
  rcases accepted_or_error v record none with hacc | ⟨e, he⟩
  · obtain ⟨hrun, hkept⟩ := hv.inserted hroom hid hacc
    rw [hrun]
    exact hkept
  · rw [insert_of_rejected he]
    exact hv

theorem update_kept (hv : v.obj.Kept T) (id : RecordId) (assignments : List (Nat × Value)) :
    (stateOf (Table.update id assignments v)).obj.Kept T := by
  cases hold : v.obj.records id with
  | none =>
    rw [update_of_missing hold]
    exact hv
  | some old =>
    rcases accepted_or_error v (old.assign assignments) (some id) with hacc | ⟨e, he⟩
    · obtain ⟨hrun, hkept⟩ := hv.updated hold hacc
      rw [hrun]
      exact hkept
    · rw [update_of_rejected hold he]
      exact hv

theorem erase_kept (hv : v.obj.Kept T) (id : RecordId) :
    (stateOf (Table.erase id v)).obj.Kept T := by
  cases hr : v.obj.records id with
  | none =>
    rw [erase_of_missing hr]
    exact hv
  | some r =>
    rw [erase_of_present hv.toAgrees hr]
    exact hv.withoutRow hr

theorem RowOp.kept (hv : v.obj.Kept T) (op : RowOp) (hop : op.Roomy T.room v.obj) :
    (stateOf (op.run v)).obj.Kept T := by
  cases op with
  | insert record =>
    rw [RowOp.run, stateOf_bind_pure]
    exact insert_kept hv (fun _ => hop.1) hop.2 record
  | update id assignments =>
    rw [RowOp.run, stateOf_bind_pure]
    exact update_kept hv id assignments
  | erase id =>
    rw [RowOp.run, stateOf_bind_pure]
    exact erase_kept hv id

/-- The table over the ideal index, as a machine. -/
def idealRows (lost : Lost) (room : Nat) :
    Spec RowOp (OnDisk (KeyMap lost) (Table (KeyMap lost))) (Except Exn (Option RecordId)) where
  Allowed op v := op.Roomy room v.obj
  after op v := stateOf (op.run v)
  answer op v := outcomeOf (op.run v)

/-- A table over an index that tracks the ideal one has its answers and throws. -/
theorem simulates_idealRows :
    Simulates (fun v s => MirrorsOn T s v ∧ v.obj.Kept T)
      (fun op => attempt (op.run (ι := ι))) (idealRows lost T.room) := by
  intro op v s hR hop
  obtain ⟨h, hv⟩ := hR
  have hagree := RowOp.agree h hv op hop
  refine ⟨stateOf (op.run s), ?_, hagree.state, RowOp.kept hv op hop⟩
  refine (attempt_apply _ s).trans ?_
  rw [hagree.outcome]
  rfl

/-- The index of a column finds the record that has a value there, and no other. -/
theorem indexFind_exact (h : MirrorsOn T s v) (hv : v.obj.Kept T) {col : Nat} {c : ColumnDef}
    (hc : s.obj.schema.columns[col]? = some c) (hidx : c.indexed = true) {key : Value}
    (hkey : key.HasType c.type) : ∃ found s', indexFind col key s = .ok found s' ∧
      ∀ id, found = some id ↔ ∃ r, s.obj.records id = some r ∧ r.value col = key := by
  rw [h.obj.schema] at hc
  have hcol := TableSchema.mem_indexedColumns.mpr ⟨c, hc, hidx⟩
  obtain ⟨m, hm, hagree⟩ := hv.agree col hcol
  have hrun := indexFind_agree h col (hv.keyed col c hc hidx key hkey)
  rw [indexFind_run, indexAt_of_agrees hv.toAgrees hcol, hm, Option.bind_some,
    KeyMap.findId_comparable (hv.comparable hc hidx hagree hkey)] at hrun
  obtain ⟨s', hfind, -⟩ := hrun.of_ok
  refine ⟨_, s', hfind, fun id => ?_⟩
  rw [lookupKey_eq_some m.sorted, hagree, h.obj.records]

/-! ### New tables -/

/-- A new table, bound to a file where there is none. -/
def boundTable (ι : Type) [TableIndex ι] (name : Str) (schema : TableSchema) (datPath : Path) :
    OnDisk ι (Table ι) := stateOf (bindDatPath datPath ⟨{ name, schema }, ∅⟩)

theorem boundTable_mirrors (T : Tracking ι lost) (name : Str) {schema : TableSchema} (datPath : Path)
    (hkeyed : Keyed T.Key schema) :
    MirrorsOn T (boundTable ι name schema datPath) (boundTable (KeyMap lost) name schema datPath) ∧
      (boundTable (KeyMap lost) name schema datPath).obj.Kept T := by
  have hfiles : FilesMirror T (∅ : FileSystem ι) (∅ : FileSystem (KeyMap lost)) := .empty
  have hnew : MirrorsOn T ⟨{ name, schema }, ∅⟩ ⟨{ name, schema }, ∅⟩ :=
    ⟨mirrors_new T name schema, hfiles⟩
  refine ⟨(bindDatPath_agree hnew datPath).state, ?_⟩
  have hfs : NoIndexes (∅ : FileSystem (KeyMap lost)) datPath := fun _ => .inl rfl
  obtain ⟨gs, hrun⟩ := bindDatPath_new lost name schema datPath hfs
  rw [boundTable, hrun]
  exact {
    toSound := emptyTable_sound lost name schema datPath
    keyed := hkeyed
    rows := fun _ => Nat.zero_le _
    ids := show 1 ≤ 2 ^ 64 by decide }

end Operations

end Table
end CwDb.Storage
