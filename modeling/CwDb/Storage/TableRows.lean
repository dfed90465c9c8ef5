import CwDb.Storage.Table

/-! Row operations over ideal indexes.

A table agrees with its indexes (`Table.Agrees`) when it is bound and the index of
every indexed column holds exactly the pairs of a record's value there and its id, all
values of the column's type.
The lookups, checks and index loops of a row operation are computed once on such a
table: the checks leave everything as it is, and the loops change one index after
the other (`mapIndexes`). -/
namespace CwDb.Storage
open Foundation DiskM

variable {lost : Lost}

/-! ### The ideal index -/

namespace KeyMap

theorem find_comparable {m : KeyMap lost} {key : Value} (h : m.comparable key = true) :
    ∃ c : Cursor, find key m = .ok c m ∧ c.head?.map Prod.snd = lookupKey key m.entries := by
  rw [find, if_pos h, lookupKey_eq_head m.sorted]
  cases fromKey key m.entries with
  | nil => exact ⟨[], rfl, rfl⟩
  | cons e es =>
    refine ⟨_, rfl, ?_⟩
    by_cases hek : e.1 = key
    · rw [if_pos hek]
      simp [Option.filter, hek]
    · rw [if_neg hek]
      simp [Option.filter, hek]

/-- Wherever a lookup ends up, it is on a pair of the map. -/
theorem find_mem (key : Value) (m : KeyMap lost) :
    ∃ c : Cursor, find key m = .ok c m ∧ ∀ e ∈ c, e ∈ m.entries := by
  unfold find
  split
  · split
    · rename_i e es hfrom
      refine ⟨_, rfl, ?_⟩
      intro x hx
      split at hx
      · exact (mem_fromKey.mp (hfrom ▸ hx)).1
      · cases hx
    · exact ⟨[], rfl, by simp⟩
  · exact ⟨_, rfl, fun e he => List.mem_of_mem_drop he⟩

/-- The id a lookup of a key gives. -/
def findId (m : KeyMap lost) (key : Value) : Option RecordId :=
  match find key m with
  | .ok c _ => c.head?.map Prod.snd
  | .error _ _ => none

theorem find_run (m : KeyMap lost) (key : Value) :
    ∃ c : Cursor, find key m = .ok c m ∧ c.head?.map Prod.snd = m.findId key := by
  obtain ⟨c, hc, -⟩ := find_mem key m
  exact ⟨c, hc, by rw [findId, hc]⟩

theorem findId_comparable {m : KeyMap lost} {key : Value} (h : m.comparable key = true) :
    m.findId key = lookupKey key m.entries := by
  obtain ⟨c, hc, hid⟩ := find_comparable h
  rw [findId, hc]
  exact hid

theorem findId_mem {m : KeyMap lost} {key : Value} {id : RecordId} (h : m.findId key = some id) :
    ∃ e ∈ m.entries, e.2 = id := by
  obtain ⟨c, hc, hmem⟩ := find_mem key m
  rw [findId, hc] at h
  obtain ⟨e, he, rfl⟩ := Option.map_eq_some_iff.mp h
  exact ⟨e, hmem e (List.mem_of_head? he), rfl⟩

theorem insert_new {m : KeyMap lost} {key : Value} {id : RecordId} (hkey : Indexable key)
    (hnew : lookupKey key m.entries = none) : insert key id m = .ok () (m.add key id hkey) := by
  rw [insert, dif_pos hkey, hnew]
  rfl

/-- The map with a pair more, if an index takes the key. -/
def put (m : KeyMap lost) (key : Value) (id : RecordId) : KeyMap lost :=
  if h : Indexable key then m.add key id h else m

end KeyMap

/-- The table with other indexes. -/
def OnDisk.withIndexes {ι : Type} [TableIndex ι] (s : OnDisk ι (Table ι))
    (indexes : Nat → Option ι) : OnDisk ι (Table ι) :=
  { s with obj.indexes := indexes }

section WithIndexes
variable {ι : Type} [TableIndex ι] (s : OnDisk ι (Table ι)) (i j : Nat → Option ι)

@[simp] theorem OnDisk.withIndexes_indexes : (s.withIndexes i).obj.indexes = i := rfl
@[simp] theorem OnDisk.withIndexes_records : (s.withIndexes i).obj.records = s.obj.records := rfl
@[simp] theorem OnDisk.withIndexes_order : (s.withIndexes i).obj.order = s.obj.order := rfl
@[simp] theorem OnDisk.withIndexes_twice :
    (s.withIndexes i).withIndexes j = s.withIndexes j := rfl

end WithIndexes

namespace Table

/-- The indexes of some columns, changed. -/
def mapIndexes {ι : Type} (g : Nat → ι → ι) (cols : List Nat) (indexes : Nat → Option ι) :
    Nat → Option ι :=
  fun c => if c ∈ cols then (indexes c).map (g c) else indexes c

theorem mapIndexes_of_mem {ι : Type} {g : Nat → ι → ι} {cols : List Nat}
    {indexes : Nat → Option ι} {col : Nat} {m : ι} (hcol : col ∈ cols)
    (hm : indexes col = some m) : mapIndexes g cols indexes col = some (g col m) := by
  rw [mapIndexes, if_pos hcol, hm, Option.map_some]

theorem mapIndexes_mapIndexes {ι : Type} (f g : Nat → ι → ι) (cols : List Nat)
    (indexes : Nat → Option ι) :
    mapIndexes g cols (mapIndexes f cols indexes) =
      mapIndexes (fun col m => g col (f col m)) cols indexes := by
  funext c
  by_cases hc : c ∈ cols
  · simp [mapIndexes, hc, Function.comp_def]
  · simp [mapIndexes, hc]

/-- The index of a column holds exactly the pairs of a record's value there and its id. -/
def IndexAgrees (t : Table (KeyMap lost)) (col : Nat) (m : KeyMap lost) : Prop :=
  ∀ v id, (v, id) ∈ m.entries ↔ ∃ r, t.records id = some r ∧ r.value col = v

/-- Every indexed column has its index, which agrees with the records, and keys of
the column's type only; the next id is no record's. -/
structure Agrees (t : Table (KeyMap lost)) : Prop where
  bound : t.datPath.isSome = true
  fresh : t.records t.nextId = none
  agree : ∀ col ∈ t.schema.indexedColumns, ∃ m, t.indexes col = some m ∧ t.IndexAgrees col m
  typed : ∀ col c, t.schema.columns[col]? = some c → c.indexed = true →
    ∀ id r, t.records id = some r → (r.value col).HasType c.type

/-- A bound table with the index of every indexed column open. -/
structure Opened {ι : Type} (t : Table ι) : Prop where
  bound : t.datPath.isSome = true
  isOpen : ∀ col ∈ t.schema.indexedColumns, (t.indexes col).isSome = true

theorem Agrees.opened {t : Table (KeyMap lost)} (h : t.Agrees) : t.Opened where
  bound := h.bound
  isOpen col hcol := by
    obtain ⟨m, hm, -⟩ := h.agree col hcol
    rw [hm]
    rfl

theorem columnIsIndexed_iff {ι : Type} (t : Table ι) (col : Nat) :
    t.columnIsIndexed col = true ↔ col ∈ t.schema.indexedColumns := by
  rw [TableSchema.mem_indexedColumns, columnIsIndexed]
  cases t.schema.columns[col]? with
  | none => simp
  | some c => simp

section Opening
variable {ι : Type} [TableIndex ι]

/-- A loop that does nothing in any of its rounds. -/
theorem eachColumn_of_still {f : Nat → TableM ι Unit} {cols : List Nat} {s : OnDisk ι (Table ι)}
    (h : ∀ col ∈ cols, f col s = .ok () s) : eachColumn f cols s = .ok () s := by
  induction cols with
  | nil => rfl
  | cons col cols ih =>
    rw [eachColumn, bind_ok (h col (List.mem_cons_self ..))]
    exact ih fun c hc => h c (List.mem_cons_of_mem col hc)

theorem openIndexes_of_opened {s : OnDisk ι (Table ι)} (h : s.obj.Opened) :
    openIndexes s = .ok () s := by
  rw [openIndexes, getObj_bind_apply]
  cases s.obj.datPath with
  | none => rfl
  | some datPath =>
    refine eachColumn_of_still fun col hcol => ?_
    rw [openIndex, getObj_bind_apply, if_pos (h.isOpen col hcol), pure_apply]

theorem mutableIndex_of_opened {s : OnDisk ι (Table ι)} (h : s.obj.Opened) {col : Nat}
    (hcol : col ∈ s.obj.schema.indexedColumns) {disk : ι} (hdisk : s.obj.indexes col = some disk) :
    mutableIndex col s = .ok disk s := by
  have hidx : ¬ (!s.obj.columnIsIndexed col) = true := by
    rw [(columnIsIndexed_iff s.obj col).mpr hcol]
    exact Bool.false_ne_true
  have hbound : ¬ s.obj.datPath.isNone = true := by
    rw [← Option.not_isSome, h.bound]
    exact Bool.false_ne_true
  rw [mutableIndex, getObj_bind_apply, if_neg hidx, if_neg hbound,
    bind_ok (openIndexes_of_opened h), getObj_bind_apply, hdisk]
  rfl

end Opening

/-! ### Loops over the indexes -/

section IndexLoops
variable {ι : Type} [TableIndex ι]

theorem onIndex_ok {α : Type} {s : OnDisk ι (Table ι)} {col : Nat} {disk d : ι}
    {x : EStateM Exn ι α} {a : α} (hx : x disk = .ok a d) :
    onIndex col disk x s =
      .ok a (s.withIndexes (Function.update s.obj.indexes col (some d))) := by
  rw [onIndex, hx]
  rfl

theorem onIndex_error {α : Type} {s : OnDisk ι (Table ι)} {col : Nat} {disk d : ι}
    {x : EStateM Exn ι α} {e : Exn} (hx : x disk = .error e d) :
    onIndex col disk x s =
      .error e (s.withIndexes (Function.update s.obj.indexes col (some d))) := by
  rw [onIndex, hx]
  rfl

/-- A loop that does `y col` on the index of each column. -/
def IndexLoop (f : Nat → TableM ι Unit) (y : Nat → EStateM Exn ι Unit) : Prop :=
  ∀ (s : OnDisk ι (Table ι)), s.obj.Opened → ∀ col ∈ s.obj.schema.indexedColumns, ∀ disk,
    s.obj.indexes col = some disk → f col s = onIndex col disk (y col) s

theorem Opened.update {s : OnDisk ι (Table ι)} (h : s.obj.Opened) (col : Nat) (disk : ι) :
    (s.withIndexes (Function.update s.obj.indexes col (some disk))).obj.Opened where
  bound := h.bound
  isOpen c hc := by
    show (Function.update s.obj.indexes col (some disk) c).isSome = true
    by_cases hcc : c = col
    · rw [hcc, Function.update_self]
      rfl
    · rw [Function.update_of_ne hcc]
      exact h.isOpen c hc

variable {f : Nat → TableM ι Unit} {y : Nat → EStateM Exn ι Unit}

theorem IndexLoop.run_ok (hf : IndexLoop f y) {g : Nat → ι → ι} {cols : List Nat}
    {s : OnDisk ι (Table ι)} (hs : s.obj.Opened) (hnd : cols.Nodup)
    (hcols : ∀ col ∈ cols, col ∈ s.obj.schema.indexedColumns)
    (hy : ∀ col ∈ cols, ∀ disk, s.obj.indexes col = some disk → y col disk = .ok () (g col disk)) :
    eachColumn f cols s = .ok () (s.withIndexes (mapIndexes g cols s.obj.indexes)) := by
  induction cols generalizing s with
  | nil => rfl
  | cons col cols ih =>
    obtain ⟨hnot, hnd⟩ := List.nodup_cons.mp hnd
    have hmem := hcols col (List.mem_cons_self ..)
    obtain ⟨disk, hdisk⟩ := Option.isSome_iff_exists.mp (hs.isOpen col hmem)
    have hstep : f col s =
        .ok () (s.withIndexes (Function.update s.obj.indexes col (some (g col disk)))) := by
      rw [hf s hs col hmem disk hdisk, onIndex_ok (hy col (List.mem_cons_self ..) disk hdisk)]
    rw [eachColumn, bind_ok hstep, ih (hs.update col _) hnd
      (fun c hc => hcols c (List.mem_cons_of_mem col hc))]
    · rw [OnDisk.withIndexes_twice, OnDisk.withIndexes_indexes]
      congr 2
      funext c
      by_cases hc : c = col
      · subst hc
        simp [mapIndexes, hnot, hdisk]
      · simp [mapIndexes, hc]
    · intro c hc d hd
      have hne : c ≠ col := fun h => hnot (h ▸ hc)
      refine hy c (List.mem_cons_of_mem col hc) d ?_
      rwa [OnDisk.withIndexes_indexes, Function.update_of_ne hne] at hd

/-- A loop that throws does so on the index of one of its columns, as it was before
the loop. -/
theorem IndexLoop.run_error (hf : IndexLoop f y) {cols : List Nat} {s s' : OnDisk ι (Table ι)}
    {e : Exn} (hs : s.obj.Opened) (hnd : cols.Nodup)
    (hcols : ∀ col ∈ cols, col ∈ s.obj.schema.indexedColumns)
    (h : eachColumn f cols s = .error e s') :
    (∃ indexes, s' = s.withIndexes indexes) ∧
      ∃ col ∈ cols, ∃ disk d, s.obj.indexes col = some disk ∧ y col disk = .error e d := by
  induction cols generalizing s with
  | nil => cases h
  | cons col cols ih =>
    obtain ⟨hnot, hnd⟩ := List.nodup_cons.mp hnd
    have hmem := hcols col (List.mem_cons_self ..)
    obtain ⟨disk, hdisk⟩ := Option.isSome_iff_exists.mp (hs.isOpen col hmem)
    cases hy : y col disk with
    | error e' d =>
      have hstep : f col s =
          .error e' (s.withIndexes (Function.update s.obj.indexes col (some d))) := by
        rw [hf s hs col hmem disk hdisk, onIndex_error hy]
      rw [eachColumn, bind_error hstep] at h
      injection h with he hs'
      subst he
      exact ⟨⟨_, hs'.symm⟩, col, List.mem_cons_self .., disk, d, hdisk, hy⟩
    | ok u d =>
      have hstep : f col s =
          .ok () (s.withIndexes (Function.update s.obj.indexes col (some d))) := by
        rw [hf s hs col hmem disk hdisk, onIndex_ok hy]
      rw [eachColumn, bind_ok hstep] at h
      obtain ⟨⟨indexes, hs'⟩, c, hc, disk', d', hd, hy'⟩ := ih (hs.update col d) hnd
        (fun c hc => hcols c (List.mem_cons_of_mem col hc)) h
      have hne : c ≠ col := fun h => hnot (h ▸ hc)
      refine ⟨⟨indexes, hs'⟩, c, List.mem_cons_of_mem col hc, disk', d', ?_, hy'⟩
      rwa [OnDisk.withIndexes_indexes, Function.update_of_ne hne] at hd

/-- A loop that returns did so on every index, as it was before the loop. -/
theorem IndexLoop.of_run_ok (hf : IndexLoop f y) {cols : List Nat} {s s' : OnDisk ι (Table ι)}
    (hs : s.obj.Opened) (hnd : cols.Nodup)
    (hcols : ∀ col ∈ cols, col ∈ s.obj.schema.indexedColumns)
    (h : eachColumn f cols s = .ok () s') :
    ∀ col ∈ cols, ∀ disk, s.obj.indexes col = some disk → ∃ d, y col disk = .ok () d := by
  induction cols generalizing s with
  | nil => intro col hcol; cases hcol
  | cons col cols ih =>
    obtain ⟨hnot, hnd⟩ := List.nodup_cons.mp hnd
    have hmem := hcols col (List.mem_cons_self ..)
    obtain ⟨disk, hdisk⟩ := Option.isSome_iff_exists.mp (hs.isOpen col hmem)
    rw [eachColumn] at h
    obtain ⟨u, t, hstep, hrest⟩ := bind_eq_ok.mp h
    rw [hf s hs col hmem disk hdisk, onIndex] at hstep
    cases hy : y col disk with
    | error e d => rw [hy] at hstep; cases hstep
    | ok v d =>
      rw [hy] at hstep
      injection hstep with _ ht
      have ht' : t = s.withIndexes (Function.update s.obj.indexes col (some d)) := ht.symm
      subst ht'
      intro c hc disk' hdisk'
      by_cases hcc : c = col
      · subst hcc
        rw [hdisk] at hdisk'
        injection hdisk' with hdisk'
        exact ⟨d, hdisk' ▸ hy⟩
      · have hc' := (List.mem_cons.mp hc).resolve_left hcc
        refine ih (hs.update col d) hnd (fun c hc => hcols c (List.mem_cons_of_mem col hc)) hrest
          c hc' disk' ?_
        rwa [OnDisk.withIndexes_indexes, Function.update_of_ne hcc]

end IndexLoops

/-! ### Checks -/

section Checks
variable {s : OnDisk (KeyMap lost) (Table (KeyMap lost))}

theorem indexAt_eq_some {ι : Type} [TableIndex ι] {t : Table ι} {col : Nat} {disk : ι}
    (h : t.indexAt col = some disk) : t.indexes col = some disk := by
  unfold indexAt at h
  split at h
  · cases hd : t.indexes col with
    | none => rw [hd] at h; cases h
    | some d =>
      rw [hd] at h
      simp only at h
      split at h
      · exact h
      · cases h
  · cases h

theorem indexAt_of_agrees (h : s.obj.Agrees) {col : Nat}
    (hcol : col ∈ s.obj.schema.indexedColumns) : s.obj.indexAt col = s.obj.indexes col := by
  obtain ⟨m, hm, -⟩ := h.agree col hcol
  rw [indexAt, if_pos ((columnIsIndexed_iff _ _).mpr hcol), hm]
  rfl

/-- An operation that leaves its index alone leaves the table alone. -/
theorem onIndex_still {ι : Type} [TableIndex ι] {α : Type} {s : OnDisk ι (Table ι)} {col : Nat}
    {disk : ι} {x : EStateM Exn ι α} {a : α} (hdisk : s.obj.indexes col = some disk)
    (hx : x disk = .ok a disk) : onIndex col disk x s = .ok a s := by
  rw [onIndex, hx]
  simp only [← hdisk, Function.update_eq_self]

/-- A lookup changes nothing. -/
theorem indexFind_run (s : OnDisk (KeyMap lost) (Table (KeyMap lost))) (col : Nat) (key : Value) :
    indexFind col key s = .ok ((s.obj.indexAt col).bind fun m => m.findId key) s := by
  rw [indexFind, getObj_bind_apply]
  cases h : s.obj.indexAt col with
  | none => rfl
  | some m =>
    obtain ⟨c, hc, hid⟩ := m.find_run key
    refine (bind_ok (onIndex_still (indexAt_eq_some h) hc)).trans ?_
    rw [pure_apply, Option.bind_some, ← hid]
    rfl

/-- The second loop of the checks, column by column. -/
theorem checkUnique_run (r : Record) (existing : Option RecordId) (col : Nat) :
    checkUnique r existing col s =
      (if (r.value col).isNull then .ok () s
      else
        let found := (s.obj.indexAt col).bind fun m => m.findId (r.value col)
        if found.isSome && found ≠ existing then
          .error (.runtimeError
            ("Duplicate value in indexed column '" ++ (s.obj.columnName col).text ++ "'")) s
        else .ok () s) := by
  unfold checkUnique
  split
  · rfl
  · rw [bind_ok (indexFind_run s col (r.value col)), getObj_bind_apply]
    split
    · rename_i h
      rw [if_pos h, throw_apply]
    · rename_i h
      rw [if_neg h, pure_apply]

theorem eachColumn_checkUnique (r : Record) (existing : Option RecordId) (cols : List Nat) :
    (eachColumn (checkUnique r existing) cols s = .ok () s ∧
      ∀ col ∈ cols, checkUnique r existing col s = .ok () s) ∨
    ∃ e, eachColumn (checkUnique r existing) cols s = .error e s := by
  induction cols with
  | nil => exact .inl ⟨rfl, by simp⟩
  | cons col cols ih =>
    by_cases hcol : checkUnique r existing col s = .ok () s
    · rw [eachColumn, bind_ok hcol]
      rcases ih with ⟨hok, hall⟩ | herr
      · refine .inl ⟨hok, fun c hc => ?_⟩
        rcases List.mem_cons.mp hc with rfl | hc
        · exact hcol
        · exact hall c hc
      · exact .inr herr
    · right
      have herr : ∃ e, checkUnique r existing col s = .error e s := by
        rw [checkUnique_run] at hcol ⊢
        split at hcol
        · exact absurd rfl hcol
        · rename_i hnull
          rw [if_neg hnull]
          simp only at hcol ⊢
          split at hcol
          · rename_i hdup
            exact ⟨_, if_pos hdup⟩
          · exact absurd rfl hcol
      obtain ⟨e, he⟩ := herr
      exact ⟨e, by rw [eachColumn, bind_error he]⟩

/-- The checks change nothing; what they accept has one value per column, of the
column's type, NULL only where it may be, and no indexed value that a lookup finds
in another record. -/
theorem enforceConstraints_run (r : Record) (existing : Option RecordId) :
    (enforceConstraints r existing s = .ok () s ∧
      r.values.length = s.obj.schema.columns.length ∧
      checkValues s.obj.schema.columns r.values = .ok () ∧
      ∀ col ∈ s.obj.schema.indexedColumns, checkUnique r existing col s = .ok () s) ∨
    ∃ e, enforceConstraints r existing s = .error e s := by
  unfold enforceConstraints
  rw [getObj_bind_apply]
  by_cases hlen : r.values.length = s.obj.schema.columns.length
  · rw [if_neg (by simpa using hlen)]
    cases hv : checkValues s.obj.schema.columns r.values with
    | error e => exact .inr ⟨e, rfl⟩
    | ok u =>
      rw [bind_ok (fromExcept_ok_apply _ _)]
      rcases eachColumn_checkUnique r existing s.obj.schema.indexedColumns with ⟨h, hall⟩ | herr
      · exact .inl ⟨h, hlen, rfl, hall⟩
      · exact .inr herr
  · rw [if_pos hlen]
    exact .inr ⟨_, rfl⟩

/-- A key of a column's type compares with every key of its index. -/
theorem Agrees.comparable {t : Table (KeyMap lost)} (h : t.Agrees) {col : Nat} {c : ColumnDef}
    {m : KeyMap lost} {v : Value} (hc : t.schema.columns[col]? = some c) (hidx : c.indexed = true)
    (hm : t.IndexAgrees col m) (hv : v.HasType c.type) : m.comparable v = true := by
  rw [KeyMap.comparable, List.all_eq_true]
  intro e he
  obtain ⟨r, hr, hval⟩ := (hm e.1 e.2).mp he
  rw [← hval]
  exact Value.compare_valid (h.typed col c hc hidx e.2 r hr) hv

theorem checkValues_ok {cols : List ColumnDef} {vs : List Value}
    (h : checkValues cols vs = .ok ()) (col : Nat) (c : ColumnDef) (hc : cols[col]? = some c)
    (v : Value) (hv : vs[col]? = some v) :
    (v.isNull = true → c.notNull = false ∧ c.indexed = false) ∧ v.matchesType c.type = true := by
  induction cols generalizing vs col with
  | nil => cases hc
  | cons c₀ cols ih =>
    cases vs with
    | nil => cases hv
    | cons v₀ vs =>
      rw [checkValues] at h
      have hrest : checkValues cols vs = .ok () ∧
          (v₀.isNull = true → c₀.notNull = false ∧ c₀.indexed = false) ∧
            v₀.matchesType c₀.type = true := by
        split at h
        · rename_i hnull
          split at h
          · cases h
          · rename_i hfree
            refine ⟨h, fun _ => by simpa using hfree, ?_⟩
            simp [Value.matchesType, hnull]
        · rename_i hnull
          split at h
          · cases h
          · rename_i htype
            exact ⟨h, fun hn => absurd hn hnull, by simpa using htype⟩
      cases col with
      | zero =>
        injection hc with hc
        injection hv with hv
        subst hc hv
        exact hrest.2
      | succ col => exact ih hrest.1 col hc hv

end Checks

/-! ### The index loops of a row -/

section RowLoops
variable {ι : Type} [TableIndex ι]

/-- What the loop of `install_into_indexes` does to one index. -/
def installStep (id : RecordId) (r : Record) (col : Nat) : EStateM Exn ι Unit :=
  if (r.value col).isNull then pure () else TableIndex.insert (r.value col) id

/-- What the loop of `remove_from_indexes` does to one index. -/
def removeStep (r : Record) (col : Nat) : EStateM Exn ι Unit :=
  if (r.value col).isNull then pure ()
  else do
    let _ ← TableIndex.erase (r.value col)
    return

theorem onIndex_pure {s : OnDisk ι (Table ι)} {col : Nat} {disk : ι}
    (hdisk : s.obj.indexes col = some disk) : onIndex col disk (pure ()) s = .ok () s :=
  onIndex_still hdisk rfl

variable (ι) in
theorem install_loop (id : RecordId) (r : Record) :
    IndexLoop (ι := ι) (installColumn id r) (installStep id r) := by
  intro s hs col hcol disk hdisk
  unfold installColumn installStep
  by_cases hnull : (r.value col).isNull = true
  · rw [if_pos hnull, if_pos hnull, pure_apply, onIndex_pure hdisk]
  · rw [if_neg hnull, if_neg hnull]
    exact bind_ok (mutableIndex_of_opened hs hcol hdisk)

variable (ι) in
theorem remove_loop (r : Record) :
    IndexLoop (ι := ι) (removeColumn r) (removeStep r) := by
  intro s hs col hcol disk hdisk
  unfold removeColumn removeStep
  by_cases hnull : (r.value col).isNull = true
  · rw [if_pos hnull, if_pos hnull, pure_apply, onIndex_pure hdisk]
  · rw [if_neg hnull, if_neg hnull]
    refine (bind_ok (mutableIndex_of_opened hs hcol hdisk)).trans ?_
    cases he : TableIndex.erase (r.value col) disk with
    | ok b d =>
      have hstep : (do let _ ← TableIndex.erase (r.value col)) disk = .ok () d := bind_ok he
      rw [bind_ok (onIndex_ok he), onIndex_ok hstep, pure_apply]
    | error e d => rw [bind_error (onIndex_error he), onIndex_error (bind_error he)]

end RowLoops

section IdealLoops
variable {s : OnDisk (KeyMap lost) (Table (KeyMap lost))}

/-- The record's own keys leave the indexes, without a throw. -/
theorem removeFromIndexes_run (hs : s.obj.Agrees) {id : RecordId} {r : Record}
    (hr : s.obj.records id = some r) :
    removeFromIndexes r s = .ok () (s.withIndexes
      (mapIndexes (fun col m => m.remove (r.value col)) s.obj.schema.indexedColumns
        s.obj.indexes)) := by
  rw [removeFromIndexes, getObj_bind_apply]
  refine (remove_loop _ r).run_ok hs.opened s.obj.schema.indexedColumns_nodup (fun _ h => h) ?_
  intro col hcol m hm
  obtain ⟨m', hm', hagree⟩ := hs.agree col hcol
  rw [hm] at hm'
  injection hm' with hm'
  subst hm'
  have hmem : (r.value col, id) ∈ m.entries := (hagree _ _).mpr ⟨r, hr, rfl⟩
  have hnull : ¬ (r.value col).isNull = true := by
    rw [(m.indexable _ hmem).1]
    exact Bool.false_ne_true
  have hfound : (lookupKey (r.value col) m.entries).isSome = true := by
    rw [(lookupKey_eq_some m.sorted).mpr hmem]
    rfl
  have herase : TableIndex.erase (r.value col) m = .ok true (m.remove (r.value col)) :=
    if_pos hfound
  rw [removeStep, if_neg hnull, bind_ok herase, pure_apply]

/-- A record whose indexed values are new and short enough enters the indexes. -/
theorem installIntoIndexes_run (hs : s.obj.Opened) {id : RecordId} {r : Record}
    (hnew : ∀ col ∈ s.obj.schema.indexedColumns, ∀ m, s.obj.indexes col = some m →
      Indexable (r.value col) ∧ lookupKey (r.value col) m.entries = none) :
    installIntoIndexes id r s = .ok () (s.withIndexes
      (mapIndexes (fun col m => m.put (r.value col) id) s.obj.schema.indexedColumns
        s.obj.indexes)) := by
  rw [installIntoIndexes, getObj_bind_apply]
  refine (install_loop _ id r).run_ok hs s.obj.schema.indexedColumns_nodup (fun _ h => h) ?_
  intro col hcol m hm
  obtain ⟨hkey, habs⟩ := hnew col hcol m hm
  have hnull : ¬ (r.value col).isNull = true := by
    rw [hkey.1]
    exact Bool.false_ne_true
  rw [installStep, if_neg hnull, KeyMap.put, dif_pos hkey]
  exact KeyMap.insert_new hkey habs

/-- The installation that throws was refused by an index: the value is no key, or the
index has it. -/
theorem installIntoIndexes_error (hs : s.obj.Opened) {id : RecordId} {r : Record} {e : Exn}
    {s' : OnDisk (KeyMap lost) (Table (KeyMap lost))}
    (h : installIntoIndexes id r s = .error e s') :
    (∃ indexes, s' = s.withIndexes indexes) ∧
      ∃ col ∈ s.obj.schema.indexedColumns, ∃ m, s.obj.indexes col = some m ∧
        (¬ Indexable (r.value col) ∨ (lookupKey (r.value col) m.entries).isSome = true) := by
  rw [installIntoIndexes, getObj_bind_apply] at h
  obtain ⟨hidx, col, hcol, m, d, hm, hy⟩ := (install_loop _ id r).run_error hs
    s.obj.schema.indexedColumns_nodup (fun _ h => h) h
  refine ⟨hidx, col, hcol, m, hm, ?_⟩
  by_cases hkey : Indexable (r.value col)
  · right
    by_contra hnone
    have hnull : ¬ (r.value col).isNull = true := by
      rw [hkey.1]
      exact Bool.false_ne_true
    rw [installStep, if_neg hnull] at hy
    have hnew : lookupKey (r.value col) m.entries = none := by simpa using hnone
    rw [show TableIndex.insert (r.value col) id m = _ from KeyMap.insert_new hkey hnew] at hy
    cases hy
  · exact .inl hkey

/-- What the installation put into the indexes was new to them. -/
theorem installIntoIndexes_ok (hs : s.obj.Opened) {id : RecordId} {r : Record}
    (hnull : ∀ col ∈ s.obj.schema.indexedColumns, (r.value col).isNull = false)
    {s' : OnDisk (KeyMap lost) (Table (KeyMap lost))}
    (h : installIntoIndexes id r s = .ok () s') :
    ∀ col ∈ s.obj.schema.indexedColumns, ∀ m, s.obj.indexes col = some m →
      Indexable (r.value col) ∧ lookupKey (r.value col) m.entries = none := by
  intro col hcol m hm
  rw [installIntoIndexes, getObj_bind_apply] at h
  obtain ⟨d, hd⟩ := (install_loop _ id r).of_run_ok hs s.obj.schema.indexedColumns_nodup
    (fun _ h => h) h col hcol m hm
  rw [installStep, if_neg (by rw [hnull col hcol]; exact Bool.false_ne_true)] at hd
  change KeyMap.insert (r.value col) id m = .ok () d at hd
  rw [KeyMap.insert] at hd
  split at hd
  · rename_i hkey
    split at hd
    · cases hd
    · rename_i habs
      exact ⟨hkey, by simpa using habs⟩
  · split at hd <;> cases hd

end IdealLoops
end Table
end CwDb.Storage
