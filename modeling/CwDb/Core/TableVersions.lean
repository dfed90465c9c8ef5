import CwDb.Core.VersionFiles
import CwDb.Storage.IndexContents

/-! The three versions of a table's file.

The files of version 1 have the records only and those of version 2 a list of ids for
each index, from which `load` builds the indexes anew; those of version 3 have their
indexes in files of their own. Behind the version the three are the same bytes, so the
table comes back the same (`kept_alike`), and each of the three ways leaves every indexed
column with an index of exactly its values and ids. A column whose values no index takes
stops the building of its index.

The indexes are any that answer for their files (`FiledIndex`): what a file of version 3
opens is what flushing the index has left in it. -/
namespace CwDb.Storage
open Foundation

namespace Table
open DiskM

variable {ι : Type} [TableIndex ι] [IndexContents ι]

/-! ### Building an index -/

/-- `bulk_build` makes an exact index of the column's values and ids in strict order. -/
def BuildsExactly (t : Table ι) (col : Nat) : Prop :=
  ∀ entries : List (Value × RecordId), SortedKeys entries → (∀ e ∈ entries, Indexable e.1) →
    (∀ e, e ∈ entries ↔ ∃ r, t.records e.2 = some r ∧ r.value col = e.1) →
      ∃ d : ι, TableIndex.bulkBuild entries = .ok d ∧ t.Reflects col d

theorem buildsExactly_keyMap {lost : Lost} (t : Table (KeyMap lost)) (col : Nat) :
    t.BuildsExactly col := by
  intro entries hsorted hindexable hentries
  refine ⟨⟨entries, hsorted, hindexable⟩, dif_pos ⟨hsorted, hindexable⟩, trivial, fun v id => ?_⟩
  exact (lookupKey_eq_some hsorted).trans (hentries (v, id))

section Building
variable {t : Table ι} {col : Nat} {ids : List RecordId}

/-- The entries of a column an index takes, sorted, are an index. -/
theorem bulkBuild_columnEntries {ty : DataType} (hkeys : t.Keyable col)
    (hexact : t.BuildsExactly col)
    (htyped : ∀ id r, t.records id = some r → (r.value col).HasType ty) (hids : ids.Nodup)
    (hmem : ∀ id, id ∈ ids ↔ (t.records id).isSome = true) :
    ∃ d : ι, TableIndex.bulkBuild (sortByKey (columnEntries t col ids)) = .ok d ∧
      t.Reflects col d := by
  have htyped : ∀ e ∈ columnEntries t col ids, e.1.HasType ty := by
    intro e he
    obtain ⟨-, r, hr, hv⟩ := mem_columnEntries.mp he
    exact hv ▸ htyped _ _ hr
  have hdistinct : (columnEntries t col ids).Pairwise fun a b => a.1 ≠ b.1 := by
    refine List.pairwise_filterMap.mpr (hids.imp fun {i j} hne a ha b hb => ?_)
    obtain ⟨r, hr, rfl⟩ := Option.map_eq_some_iff.mp ha
    obtain ⟨r', hr', rfl⟩ := Option.map_eq_some_iff.mp hb
    exact fun heq => hne (hkeys.injective i j r r' hr hr' heq)
  have hsorted := sortByKey_sorted htyped hdistinct
  have hindexable : ∀ e ∈ sortByKey (columnEntries t col ids), Indexable e.1 := by
    intro e he
    obtain ⟨-, r, hr, hv⟩ := mem_columnEntries.mp (mem_sortByKey.mp he)
    exact hv ▸ hkeys.indexable _ _ hr
  apply hexact _ hsorted hindexable
  intro e
  rw [mem_sortByKey, mem_columnEntries]
  constructor
  · exact fun h => h.2
  · rintro ⟨r, hr, hv⟩
    exact ⟨(hmem e.2).mpr (by rw [hr]; rfl), r, hr, hv⟩

/-- Of any other column they are none. -/
theorem bulkBuild_columnEntries_error [FiledIndex ι] (hkeys : ¬ t.Keyable col)
    (hmem : ∀ id, id ∈ ids ↔ (t.records id).isSome = true) :
    ∃ e, (TableIndex.bulkBuild (sortByKey (columnEntries t col ids)) : Except Exn ι) =
      .error e := by
  have hentry : ∀ id r, t.records id = some r →
      (r.value col, id) ∈ sortByKey (columnEntries t col ids) := fun id r hr =>
    mem_sortByKey.mpr (mem_columnEntries.mpr ⟨(hmem id).mpr (by rw [hr]; rfl), r, hr, rfl⟩)
  cases hbuild : (TableIndex.bulkBuild (sortByKey (columnEntries t col ids)) : Except Exn ι) with
  | error e => exact ⟨e, rfl⟩
  | ok d =>
    obtain ⟨hsorted, hindexable⟩ := FiledIndex.build_sorted _ _ hbuild
    refine absurd ⟨fun id r hr => hindexable _ (hentry id r hr), ?_⟩ hkeys
    intro i j r r' hr hr' heq
    exact congrArg Prod.snd (hsorted.eq_of_key (hentry i r hr) (hentry j r' hr') heq)

end Building

/-! ### The indexes after a load -/

/-- The table, bound to its path, with an exact index for each of some columns. -/
structure Built (t : Table ι) (path : Path) (cols : List Nat)
    (u : Table ι) : Prop where
  alike : t.Alike u
  bound : u.datPath = some path
  built : ∀ col ∈ cols, ∃ d, u.indexes col = some d ∧ t.Reflects col d

section Loading
variable {t : Table ι} {path : Path}
  {s : OnDisk ι (Table ι)}

theorem Built.mono {cols cols' : List Nat} {u : Table ι} (h : t.Built path cols u)
    (hsub : ∀ col ∈ cols', col ∈ cols) : t.Built path cols' u :=
  ⟨h.alike, h.bound, fun col hcol => h.built col (hsub col hcol)⟩

theorem Built.update {cols : List Nat} {u : Table ι} (h : t.Built path cols u)
    {col : Nat} {d : ι} (hd : t.Reflects col d) :
    t.Built path (col :: cols) { u with indexes := Function.update u.indexes col (some d) } where
  alike := ⟨h.alike.name, h.alike.schema, h.alike.records, h.alike.order, h.alike.nextId⟩
  bound := h.bound
  built c hc := by
    by_cases heq : c = col
    · subst heq
      exact ⟨d, Function.update_self _ _ _, hd⟩
    · obtain ⟨d', hd', hreflects⟩ := h.built c ((List.mem_cons.mp hc).resolve_left heq)
      exact ⟨d', (Function.update_of_ne heq _ _).trans hd', hreflects⟩

/-- Building the index of a column from its entries. -/
theorem buildIndex_built {ty : DataType} {col : Nat} {ids : List RecordId}
    (hkeys : t.Keyable col) (hexact : t.BuildsExactly col)
    (htyped : ∀ id r, t.records id = some r → (r.value col).HasType ty)
    (hids : ids.Nodup) (hmem : ∀ id, id ∈ ids ↔ (t.records id).isSome = true)
    {cols : List Nat} (hs : t.Built path cols s.obj) :
    ∃ s', buildIndex path col (columnEntries t col ids) s = .ok () s' ∧
      t.Built path (col :: cols) s'.obj := by
  obtain ⟨d, hbuild, hd⟩ := bulkBuild_columnEntries hkeys hexact htyped hids hmem
  have hrun : (fromExcept (TableIndex.bulkBuild (sortByKey (columnEntries t col ids))) :
      TableM ι ι) s = .ok d s :=
    congrArg (fun x => (fromExcept x : TableM ι ι) s) hbuild
  refine ⟨⟨{ s.obj with indexes := Function.update s.obj.indexes col (some d) },
    s.fs.write (path.indexFile col) (.index (TableIndex.file d))⟩, ?_, hs.update hd⟩
  rw [buildIndex, bind_ok hrun]
  rfl

variable (path) in
theorem buildIndex_error [FiledIndex ι] {col : Nat} {ids : List RecordId} (hkeys : ¬ t.Keyable col)
    (hmem : ∀ id, id ∈ ids ↔ (t.records id).isSome = true) :
    ∃ e, buildIndex path col (columnEntries t col ids) s = .error e s := by
  obtain ⟨e, hbuild⟩ := bulkBuild_columnEntries_error hkeys hmem
  have hrun : (fromExcept (TableIndex.bulkBuild (sortByKey (columnEntries t col ids))) :
      TableM ι ι) s = .error e s :=
    congrArg (fun x => (fromExcept x : TableM ι ι) s) hbuild
  exact ⟨e, by rw [buildIndex, bind_error hrun]⟩

/-- A loop whose every round builds the index of its column. -/
theorem eachColumn_built {f : Nat → TableM ι Unit} {cols done : List Nat}
    (hf : ∀ col ∈ cols, ∀ (s : OnDisk ι (Table ι)) done,
      t.Built path done s.obj → ∃ s', f col s = .ok () s' ∧ t.Built path (col :: done) s'.obj)
    (hs : t.Built path done s.obj) :
    ∃ s', eachColumn f cols s = .ok () s' ∧ t.Built path (cols ++ done) s'.obj := by
  induction cols generalizing s done with
  | nil => exact ⟨s, rfl, hs⟩
  | cons col cols ih =>
    obtain ⟨hcol, hcols⟩ := List.forall_mem_cons.mp hf
    obtain ⟨s₁, hstep, hs₁⟩ := hcol s done hs
    obtain ⟨s₂, hrest, hs₂⟩ := ih hcols hs₁
    refine ⟨s₂, (bind_ok hstep).trans hrest, hs₂.mono fun c hc => ?_⟩
    rw [List.mem_append, List.mem_cons]
    rw [List.cons_append, List.mem_cons, List.mem_append] at hc
    tauto

/-! ### Version 1 -/

theorem rebuildIndexesOnDisk_built (hs : t.Built path [] s.obj) (htyped : t.Typed)
    (hkeys : ∀ col ∈ t.schema.indexedColumns, t.Keyable col)
    (hexact : ∀ col ∈ t.schema.indexedColumns, t.BuildsExactly col) (hnodup : t.order.Nodup)
    (hmem : ∀ id, id ∈ t.order ↔ (t.records id).isSome = true) :
    ∃ s', rebuildIndexesOnDisk s = .ok () s' ∧ t.Built path t.schema.indexedColumns s'.obj := by
  have hround : ∀ col ∈ t.schema.indexedColumns,
      ∀ (u : OnDisk ι (Table ι)) done, t.Built path done u.obj →
      ∃ u', (do
        fromExcept (assertIndexedColumnNotNull s.obj col s.obj.order)
        buildIndex path col (columnEntries s.obj col s.obj.order) : TableM ι Unit) u =
          .ok () u' ∧ t.Built path (col :: done) u'.obj := by
    intro col hcol u done hu
    obtain ⟨c, hc, hindexed⟩ := TableSchema.mem_indexedColumns.mp hcol
    obtain ⟨u', hbuild, hu'⟩ := buildIndex_built (hkeys col hcol) (hexact col hcol)
      (htyped col c hc hindexed) hnodup hmem hu
    refine ⟨u', ?_, hu'⟩
    rw [(hs.alike.keyable.mpr (hkeys col hcol)).asserted (hs.alike.mem_order hmem),
      hs.alike.columnEntries, hs.alike.order]
    exact hbuild
  obtain ⟨s', hrun, hs'⟩ := eachColumn_built hround
    (s := ⟨{ s.obj with indexes := fun _ => none }, s.fs⟩)
    ⟨⟨hs.alike.name, hs.alike.schema, hs.alike.records, hs.alike.order, hs.alike.nextId⟩,
      hs.bound, fun col (hcol : col ∈ []) => absurd hcol List.not_mem_nil⟩
  rw [List.append_nil] at hs'
  refine ⟨s', ?_, hs'⟩
  rw [rebuildIndexesOnDisk_eq hs.bound, hs.alike.schema]
  exact hrun

theorem rebuildIndexesOnDisk_error [FiledIndex ι] (hs : t.Built path [] s.obj)
    (hmem : ∀ id, id ∈ t.order ↔ (t.records id).isSome = true) {col : Nat}
    (hcol : col ∈ t.schema.indexedColumns) (hkeys : ¬ t.Keyable col) :
    ∃ e s', rebuildIndexesOnDisk s = .error e s' := by
  rw [rebuildIndexesOnDisk_eq hs.bound]
  refine eachColumn_error (hs.alike.schema.symm ▸ hcol) fun u => ?_
  cases hassert : assertIndexedColumnNotNull s.obj col s.obj.order with
  | error e => exact ⟨e, u, rfl⟩
  | ok _ =>
    obtain ⟨e, hbuild⟩ := buildIndex_error path (s := u)
      (mt hs.alike.keyable.mp hkeys) (hs.alike.mem_order hmem)
    exact ⟨e, u, hbuild⟩

/-! ### Version 2 -/

/-- Taking the index of a column away. -/
theorem Built.erase {cols : List Nat} {u : Table ι} (h : t.Built path cols u)
    (col : Nat) : t.Built path (cols.filter (· ≠ col))
      { u with indexes := Function.update u.indexes col none } where
  alike := ⟨h.alike.name, h.alike.schema, h.alike.records, h.alike.order, h.alike.nextId⟩
  bound := h.bound
  built c hc := by
    obtain ⟨hc, hne⟩ := List.mem_filter.mp hc
    obtain ⟨d, hd, hreflects⟩ := h.built c hc
    exact ⟨d, (Function.update_of_ne (of_decide_eq_true hne) _ _).trans hd, hreflects⟩

theorem loadBlock_built {ty : DataType} {col : Nat} {ids : List RecordId}
    (hcol : col ∈ t.schema.indexedColumns) (hkeys : t.Keyable col)
    (hexact : t.BuildsExactly col) (htyped : ∀ id r, t.records id = some r → (r.value col).HasType ty) (hids : ids.Nodup)
    (hmem : ∀ id, id ∈ t.order ↔ (t.records id).isSome = true) (hperm : ids.Perm t.order)
    {cols : List Nat} (hs : t.Built path cols s.obj) :
    ∃ s', loadBlock path col ids s = .ok () s' ∧ t.Built path (col :: cols) s'.obj := by
  have hassert : assertIndexedColumnNotNull s.obj col s.obj.order = .ok () :=
    (hs.alike.keyable.mpr hkeys).asserted (hs.alike.mem_order hmem)
  obtain ⟨s', hbuild, hs'⟩ := buildIndex_built (s := ⟨{ s.obj with
      indexes := Function.update s.obj.indexes col none }, s.fs⟩) hkeys hexact htyped hids
    (fun id => (hperm.mem_iff (a := id)).trans (hmem id)) (hs.erase col)
  refine ⟨s', ?_, hs'.mono fun c hc => ?_⟩
  · rw [loadBlock_run (hs.alike.schema.symm ▸ hcol), hassert, hs.alike.columnEntries]
    exact hbuild
  · rw [List.mem_cons] at hc ⊢
    rw [List.mem_filter, decide_eq_true_iff]
    tauto

theorem loadBlocks_built {blocks : List (Nat × List RecordId)} (rest : Bytes)
    (hfits : ∀ b ∈ blocks, b.1 < 256 ^ 4 ∧ b.2.length < 256 ^ 8 ∧ ∀ id ∈ b.2, id < 256 ^ 8)
    (hlisted : ∀ b ∈ blocks, b.1 ∈ t.schema.indexedColumns → b.2.Perm t.order)
    (hkeys : ∀ col ∈ t.schema.indexedColumns, t.Keyable col)
    (hexact : ∀ col ∈ t.schema.indexedColumns, t.BuildsExactly col) (htyped : t.Typed)
    (hnodup : t.order.Nodup) (hmem : ∀ id, id ∈ t.order ↔ (t.records id).isSome = true) (m : Nat)
    {cols : List Nat} (hs : t.Built path cols s.obj) :
    ∃ s', loadBlocks path blocks.length ⟨blocks.flatMap writeBlock ++ rest, m⟩ s = .ok () s' ∧
      t.Built path ((blocks.map Prod.fst).filter (· ∈ t.schema.indexedColumns) ++ cols) s'.obj := by
  induction blocks generalizing s cols m with
  | nil => exact ⟨s, rfl, hs⟩
  | cons b blocks ih =>
    obtain ⟨⟨hcol, hlength, hids⟩, hfits⟩ := List.forall_mem_cons.mp hfits
    obtain ⟨hperm, hlisted⟩ := List.forall_mem_cons.mp hlisted
    rw [List.flatMap_cons, List.append_assoc, List.length_cons,
      loadBlocks_cons b blocks.length _ m hcol hlength hids]
    by_cases hindexed : b.1 ∈ t.schema.indexedColumns
    · obtain ⟨c, hc, hcindexed⟩ := TableSchema.mem_indexedColumns.mp hindexed
      obtain ⟨s₁, hblock, hs₁⟩ := loadBlock_built hindexed (hkeys _ hindexed)
        (hexact _ hindexed) (htyped _ c hc hcindexed) ((hperm hindexed).nodup_iff.mpr hnodup) hmem (hperm hindexed) hs
      obtain ⟨s₂, hrest, hs₂⟩ := ih hfits hlisted (m + 1 + 1 + b.2.length) hs₁
      refine ⟨s₂, (bind_ok hblock).trans hrest, hs₂.mono fun c hc => ?_⟩
      simp only [List.map_cons, List.filter_cons, decide_eq_true hindexed, if_true,
        List.cons_append, List.mem_cons, List.mem_append] at hc ⊢
      tauto
    · obtain ⟨s₂, hrest, hs₂⟩ := ih hfits hlisted (m + 1 + 1 + b.2.length) hs
      have hskip := loadBlock_skip path (s := s) (hs.alike.schema.symm ▸ hindexed) b.2
      refine ⟨s₂, (bind_ok hskip).trans hrest, hs₂.mono fun c hc => ?_⟩
      simpa [hindexed] using hc

variable (path) in
theorem loadBlock_error [FiledIndex ι] {col : Nat} {ids : List RecordId} (hcol : col ∈ t.schema.indexedColumns)
    (hkeys : ¬ t.Keyable col) (hmem : ∀ id, id ∈ t.order ↔ (t.records id).isSome = true)
    (hperm : ids.Perm t.order) (hs : t.Alike s.obj) :
    ∃ e s', loadBlock path col ids s = .error e s' := by
  rw [loadBlock_run (hs.schema.symm ▸ hcol), hs.columnEntries]
  cases hassert : assertIndexedColumnNotNull s.obj col s.obj.order with
  | error e => exact ⟨e, s, rfl⟩
  | ok _ =>
    obtain ⟨e, hbuild⟩ := buildIndex_error path (s := ⟨{ s.obj with
      indexes := Function.update s.obj.indexes col none }, s.fs⟩) hkeys
      fun id => (hperm.mem_iff (a := id)).trans (hmem id)
    exact ⟨e, _, hbuild⟩

theorem loadBlocks_error [FiledIndex ι] {blocks : List (Nat × List RecordId)} (rest : Bytes)
    (hfits : ∀ b ∈ blocks, b.1 < 256 ^ 4 ∧ b.2.length < 256 ^ 8 ∧ ∀ id ∈ b.2, id < 256 ^ 8)
    {col : Nat} (hcol : col ∈ t.schema.indexedColumns) (hkeys : ¬ t.Keyable col)
    (hmem : ∀ id, id ∈ t.order ↔ (t.records id).isSome = true)
    (hblock : ∃ b ∈ blocks, b.1 = col ∧ b.2.Perm t.order) (m : Nat) (hs : t.Alike s.obj) :
    ∃ e s', loadBlocks path blocks.length ⟨blocks.flatMap writeBlock ++ rest, m⟩ s =
      .error e s' := by
  induction blocks generalizing s m with
  | nil => obtain ⟨b, hb, -⟩ := hblock; cases hb
  | cons b blocks ih =>
    obtain ⟨⟨hlow, hlength, hids⟩, hfits⟩ := List.forall_mem_cons.mp hfits
    rw [List.flatMap_cons, List.append_assoc, List.length_cons,
      loadBlocks_cons b blocks.length _ m hlow hlength hids]
    cases hrun : loadBlock path b.1 b.2 s with
    | error e s' => exact ⟨e, s', bind_error hrun⟩
    | ok _ s' =>
      have hs' := loadBlock_alike path b.1 b.2 s hs
      rw [hrun] at hs'
      obtain ⟨b', hb', hcol', hperm⟩ := hblock
      rcases List.mem_cons.mp hb' with rfl | hb'
      · subst hcol'
        obtain ⟨e, s'', herror⟩ := loadBlock_error path hcol hkeys hmem hperm hs
        rw [hrun] at herror
        cases herror
      · obtain ⟨e, s'', hrest⟩ := ih hfits ⟨b', hb', hcol', hperm⟩ (m + 1 + 1 + b.2.length) hs'
        exact ⟨e, s'', (bind_ok hrun).trans hrest⟩

/-! ### Version 3 -/

section Flushing
variable [FiledIndex ι]

/-- An index in whose file are the values of a column and their ids. -/
def Flushed (t : Table ι) (col : Nat) (u : Table ι) : Prop :=
  ∃ d held, u.indexes col = some d ∧ FiledIndex.FileHolds (TableIndex.file d) held ∧
    ∀ v id, held v = some id ↔ ∃ r, t.records id = some r ∧ r.value col = v

/-- Flushing an index that reflects its column puts it in its file and changes no other. -/
theorem flushIndex_flushed {s' : OnDisk ι (Table ι)} {col : Nat} (h : flushIndex col s = .ok () s') :
    s'.fs = s.fs ∧ s'.obj.datPath = s.obj.datPath ∧
      (∀ c, c ≠ col → s'.obj.indexes c = s.obj.indexes c) ∧
      ((∃ d, s.obj.indexes col = some d ∧ t.Reflects col d) → t.Flushed col s'.obj) := by
  rw [flushIndex, getObj_bind_apply] at h
  cases hd : s.obj.indexes col with
  | none =>
    rw [hd] at h
    cases h
    refine ⟨rfl, rfl, fun _ _ => rfl, ?_⟩
    rintro ⟨d, hsome, -⟩
    cases hsome
  | some d =>
    rw [hd] at h
    cases hopen : TableIndex.isOpen d with
    | false =>
      change (if TableIndex.isOpen d = true then onIndex col d TableIndex.flush else pure () : TableM ι Unit) s =
        _ at h
      rw [hopen] at h
      cases h
      refine ⟨rfl, rfl, fun _ _ => rfl, ?_⟩
      rintro ⟨d', hsome, hd'⟩
      rw [Option.some.inj hsome, FiledIndex.sound_open d' hd'.sound] at hopen
      cases hopen
    | true =>
      change (if TableIndex.isOpen d = true then onIndex col d TableIndex.flush else pure () : TableM ι Unit) s =
        _ at h
      rw [if_pos hopen] at h
      cases hflush : (TableIndex.flush : EStateM Exn ι Unit) d with
      | error e d' =>
        rw [onIndex_error hflush] at h
        cases h
      | ok _ d' =>
        rw [onIndex_ok hflush] at h
        cases h
        refine ⟨rfl, rfl, fun c hc => Function.update_of_ne hc _ _, ?_⟩
        rintro ⟨d'', hsome, hreflects⟩
        cases hsome
        obtain ⟨-, -, hfile⟩ := FiledIndex.flush_holds d d' hreflects.sound hflush
        exact ⟨d', _, Function.update_self _ _ _, hfile, hreflects.holds⟩

theorem flushAll_flushed {cols : List Nat} (hnodup : cols.Nodup) {s' : OnDisk ι (Table ι)}
    (h : eachColumn flushIndex cols s = .ok () s') :
    s'.fs = s.fs ∧ s'.obj.datPath = s.obj.datPath ∧
      (∀ c, c ∉ cols → s'.obj.indexes c = s.obj.indexes c) ∧
      ∀ col ∈ cols, (∃ d, s.obj.indexes col = some d ∧ t.Reflects col d) →
        t.Flushed col s'.obj := by
  induction cols generalizing s with
  | nil =>
    cases h
    exact ⟨rfl, rfl, fun _ _ => rfl, fun _ hcol => absurd hcol List.not_mem_nil⟩
  | cons col cols ih =>
    obtain ⟨hcol, hnodup⟩ := List.nodup_cons.mp hnodup
    obtain ⟨_, s₁, hfirst, hrest⟩ := bind_eq_ok.mp h
    obtain ⟨hfs, hpath, hothers, hflushed⟩ := flushIndex_flushed (t := t) hfirst
    obtain ⟨hfs', hpath', hothers', hflushed'⟩ := ih hnodup hrest
    refine ⟨hfs'.trans hfs, hpath'.trans hpath, ?_, ?_⟩
    · intro c hc
      rw [List.mem_cons, not_or] at hc
      exact (hothers' c hc.2).trans (hothers c hc.1)
    · intro c hc hreflects
      rcases List.mem_cons.mp hc with rfl | hc
      · obtain ⟨d, held, hd, hfile⟩ := hflushed hreflects
        exact ⟨d, held, (hothers' c hcol).trans hd, hfile⟩
      · have hne : c ≠ col := fun heq => hcol (heq ▸ hc)
        exact hflushed' c hc (by rwa [hothers c hne])

/-- Saving a table whose indexes reflect their columns binds it and puts them in their
files. -/
theorem save_flushed {s' : OnDisk ι (Table ι)} (hs : t.Alike s.obj)
    (hindexes : ∀ col ∈ t.schema.indexedColumns,
      ∃ d, s.obj.indexes col = some d ∧ t.Reflects col d)
    (h : save path s = .ok () s') :
    s'.obj.datPath = some path ∧ ∀ col ∈ t.schema.indexedColumns, t.Flushed col s'.obj := by
  have hopen : ∀ col ∈ s.obj.schema.indexedColumns, (s.obj.indexes col).isSome = true := by
    intro col hcol
    obtain ⟨d, hd, -⟩ := hindexes col (hs.schema ▸ hcol)
    rw [hd]
    rfl
  have hbind : bindDatPath path s = .ok () ⟨{ s.obj with datPath := some path }, s.fs⟩ := by
    rw [bindDatPath, modifyObj_bind_apply]
    exact openIndexes_of_opened ⟨rfl, hopen⟩
  rw [save, bind_ok hbind] at h
  obtain ⟨_, s₁, hflush, hrest⟩ := bind_eq_ok.mp h
  rw [flushIndexes, getObj_bind_apply] at hflush
  obtain ⟨-, hpath, -, hflushed⟩ := flushAll_flushed (t := t) List.nodup_range hflush
  have hwritten : s'.obj = s₁.obj := by
    rw [getObj_bind_apply] at hrest
    obtain ⟨data, s₂, himage, hrest⟩ := bind_eq_ok.mp hrest
    cases hdata : s₁.obj.image with
    | error e =>
      rw [hdata] at himage
      cases himage
    | ok image =>
      rw [hdata] at himage
      cases himage
      cases hrest
      rfl
  refine ⟨hwritten ▸ hpath, fun col hcol => hwritten ▸ hflushed col ?_ (hindexes col hcol)⟩
  obtain ⟨c, hc, -⟩ := TableSchema.mem_indexedColumns.mp hcol
  exact List.mem_range.mpr (hs.schema ▸ (List.getElem?_eq_some_iff.mp hc).1)

end Flushing

/-! ### Loading -/

/-- A directory that holds the table in a file of a version: of version 1 without
indexes, of version 2 with blocks, of version 3 as saving the table left it, with the
files of its indexes. -/
inductive Stored (t : Table ι) (ht : t.Storable) (path : Path) :
    Nat → FileSystem ι → Prop
  | records (fs) : fs.read path = some (.bytes ((t.contents ht).file 1)) → Stored t ht path 1 fs
  | blocks (fs) (blocks : List (Nat × List RecordId)) : t.Blocks blocks →
      fs.read path = some (.bytes ((t.contents ht).file 2 ++ writeBlocks blocks)) →
      Stored t ht path 2 fs
  | saved (s s' : OnDisk ι (Table ι)) : t.Alike s.obj →
      (∀ col ∈ t.schema.indexedColumns, ∃ d, s.obj.indexes col = some d ∧ t.Reflects col d) →
      save path s = .ok () s' →
      Stored t ht path 3
        (Dbms.syncIndexes s'.obj s'.fs (List.range s'.obj.schema.columns.length))

/-- Binding a table that was read opens the index of each column. -/
theorem bindDatPath_read {u : Table ι} (hu : t.Alike u)
    (hnone : ∀ col, u.indexes col = none) (fs : FileSystem ι) (cols : List Nat)
    (hcols : ∀ col ∈ cols, col ∈ t.schema.indexedColumns)
    (hopens : ∀ col ∈ t.schema.indexedColumns, ∃ disk,
      indexIn fs (path.indexFile col) = .ok disk ∧ (col ∈ cols → t.Reflects col disk)) :
    ∃ s', bindDatPath path ⟨u, fs⟩ = .ok () s' ∧ t.Built path cols s'.obj := by
  obtain ⟨s', hrun, hbound, hopened, -⟩ := openAll_ok
    (s := ⟨{ u with datPath := some path }, fs⟩) u.schema.indexedColumns_nodup
    (fun col _ => hnone col) (hu.schema.symm ▸ hopens)
  have hbind : bindDatPath path ⟨u, fs⟩ = .ok () s' := (bindDatPath_eq path _).trans hrun
  have halike := bindDatPath_alike path ⟨u, fs⟩ hu
  rw [hbind] at halike
  refine ⟨s', hbind, halike, hbound, fun col hcol => ?_⟩
  obtain ⟨disk, hdisk, hagree⟩ := hopened col (hu.schema.symm ▸ hcols col hcol)
  exact ⟨disk, hdisk, hagree hcol⟩

/-- Version 1: what follows the opening of the indexes. -/
theorem loadIndexes_records {u : Table ι} (hu : t.Alike u)
    (hnone : ∀ col, u.indexes col = none) {fs : FileSystem ι} (w : ReadState)
    (hopens : ∀ col ∈ t.schema.indexedColumns, Opens fs (path.indexFile col)) :
    ∃ s', t.Built path [] s'.obj ∧
      loadIndexes path 1 w ⟨u, fs⟩ = rebuildIndexesOnDisk s' := by
  obtain ⟨s', hbind, hs'⟩ := bindDatPath_read hu hnone fs []
    (fun col hcol => absurd hcol List.not_mem_nil)
    fun col hcol => (hopens col hcol).imp fun _ hdisk => ⟨hdisk, fun h => absurd h List.not_mem_nil⟩
  refine ⟨s', hs', ?_⟩
  rw [loadIndexes, bind_ok hbind]
  rfl

/-- Version 2: the blocks. -/
theorem loadIndexes_blocks {u : Table ι} (hu : t.Alike u)
    (hnone : ∀ col, u.indexes col = none) {fs : FileSystem ι}
    {blocks : List (Nat × List RecordId)} (hcount : blocks.length < 256 ^ 4) (m : Nat)
    (hopens : ∀ col ∈ t.schema.indexedColumns, Opens fs (path.indexFile col)) :
    ∃ s', t.Built path [] s'.obj ∧ loadIndexes path 2 ⟨writeBlocks blocks, m⟩ ⟨u, fs⟩ =
      loadBlocks path blocks.length ⟨blocks.flatMap writeBlock ++ [], m + 1⟩ s' := by
  obtain ⟨s', hbind, hs'⟩ := bindDatPath_read hu hnone fs []
    (fun col hcol => absurd hcol List.not_mem_nil)
    fun col hcol => (hopens col hcol).imp fun _ hdisk => ⟨hdisk, fun h => absurd h List.not_mem_nil⟩
  refine ⟨s', hs', ?_⟩
  rw [loadIndexes, bind_ok hbind, if_neg (by decide), if_neg (by decide), writeBlocks, readPod_run,
    Nat.mod_eq_of_lt hcount, List.append_nil]

/-- Loading a file of any of the three versions gives the same table: its name, schema,
next id, records and order, with an exact index for each indexed column. Where the
records have no such index, loading a file of version 1 or 2 throws. -/
theorem load_versions [FiledIndex ι] (ht : t.Exact) {version : Nat} (h : t.Stored ht.toStorable path version s.fs)
    (junk : Nat → Nat) :
    (t.Typed → (∀ col ∈ t.schema.indexedColumns, t.Keyable col) →
      (∀ col ∈ t.schema.indexedColumns, t.BuildsExactly col) →
      (version ≠ 3 → ∀ col ∈ t.schema.indexedColumns, Opens s.fs (path.indexFile col)) →
      ∃ s', load junk path s = .ok () s' ∧ t.Built path t.schema.indexedColumns s'.obj) ∧
    (version ≠ 3 → (∃ col ∈ t.schema.indexedColumns, ¬ t.Keyable col) →
      ∃ e s', load junk path s = .error e s') := by
  obtain ⟨obj, fs⟩ := s
  cases h with
  | records _ hdata =>
    rw [← List.append_nil (Contents.file _ 1)] at hdata
    obtain ⟨u, m, hu, hnone, hload⟩ := load_file (s := ⟨obj, fs⟩) ht junk (.inl rfl) hdata
    rw [hload]
    constructor
    · intro htyped hkeys hexact hopens
      obtain ⟨s₁, hs₁, hrun⟩ := loadIndexes_records hu hnone ⟨[], m⟩ (hopens (by decide))
      rw [hrun]
      exact rebuildIndexesOnDisk_built hs₁ htyped hkeys hexact ht.order_nodup ht.mem_order
    · rintro - ⟨col, hcol, hkeys⟩
      by_cases hopens : ∀ col ∈ t.schema.indexedColumns, Opens fs (path.indexFile col)
      · obtain ⟨s₁, hs₁, hrun⟩ := loadIndexes_records hu hnone ⟨[], m⟩ hopens
        rw [hrun]
        exact rebuildIndexesOnDisk_error hs₁ ht.mem_order hcol hkeys
      · exact loadIndexes_blocked hu hnone 1 ⟨[], m⟩ hopens
  | blocks _ blocks hblocks hdata =>
    have hfits : ∀ b ∈ blocks, b.1 < 256 ^ 4 ∧ b.2.length < 256 ^ 8 ∧ ∀ id ∈ b.2, id < 256 ^ 8 :=
      fun b hb => ⟨hblocks.col_lt b hb, hblocks.length_lt b hb, hblocks.ids_lt b hb⟩
    obtain ⟨u, m, hu, hnone, hload⟩ :=
      load_file (s := ⟨obj, fs⟩) ht junk (.inr (.inl rfl)) hdata
    rw [hload]
    constructor
    · intro htyped hkeys hexact hopens
      obtain ⟨s₁, hs₁, hrun⟩ := loadIndexes_blocks hu hnone hblocks.count_lt m (hopens (by decide))
      rw [hrun]
      obtain ⟨s₂, hrest, hs₂⟩ := loadBlocks_built [] hfits hblocks.listed hkeys hexact htyped
        ht.order_nodup ht.mem_order (m + 1) hs₁
      refine ⟨s₂, hrest, hs₂.mono fun col hcol => ?_⟩
      obtain ⟨b, hb, rfl⟩ := hblocks.covered col hcol
      exact List.mem_append_left _ (List.mem_filter.mpr
        ⟨List.mem_map_of_mem hb, decide_eq_true hcol⟩)
    · rintro - ⟨col, hcol, hkeys⟩
      by_cases hopens : ∀ col ∈ t.schema.indexedColumns, Opens fs (path.indexFile col)
      · obtain ⟨s₁, hs₁, hrun⟩ := loadIndexes_blocks hu hnone hblocks.count_lt m hopens
        rw [hrun]
        obtain ⟨b, hb, hbcol⟩ := hblocks.covered col hcol
        exact loadBlocks_error [] hfits hcol hkeys ht.mem_order
          ⟨b, hb, hbcol, hblocks.listed b hb (hbcol ▸ hcol)⟩ (m + 1) hs₁.alike
      · exact loadIndexes_blocked hu hnone 2 ⟨writeBlocks blocks, m⟩ hopens
  | saved s s' hs hindexes hsave =>
    refine ⟨fun _ _ _ _ => ?_, fun h => absurd rfl h⟩
    obtain ⟨data, himage, hfile⟩ := save_ok hsave
    obtain ⟨hbound, hflushed⟩ := save_flushed hs hindexes hsave
    have halike := save_alike path s hs
    rw [hsave] at halike
    obtain ⟨rfl, -⟩ := image_ok ht.toStorable (hs.image.symm.trans himage)
    have hdata := (syncIndexes_other hbound (List.range s'.obj.schema.columns.length) s'.fs).trans
      hfile
    rw [← List.append_nil (Contents.file _ kVersion)] at hdata
    obtain ⟨u, m, hu, hnone, hload⟩ := load_file (s := ⟨obj, _⟩) ht junk (.inr (.inr rfl)) hdata
    rw [hload]
    obtain ⟨s₁, hbind, hs₁⟩ := bindDatPath_read hu hnone
      (Dbms.syncIndexes s'.obj s'.fs (List.range s'.obj.schema.columns.length))
      t.schema.indexedColumns (fun _ h => h) fun col hcol => by
        obtain ⟨d, held, hd, hfiled, hheld⟩ := hflushed col hcol
        obtain ⟨disk, hdisk, hsound, hholds⟩ :=
          FiledIndex.open_holds (path.indexFile col).text _ held hfiled
        obtain ⟨c, hc, -⟩ := TableSchema.mem_indexedColumns.mp hcol
        have hrange : col ∈ List.range s'.obj.schema.columns.length :=
          List.mem_range.mpr (halike.schema ▸ (List.getElem?_eq_some_iff.mp hc).1)
        have hread := syncIndexes_read hbound hd (List.range s'.obj.schema.columns.length) s'.fs
          (.inl hrange)
        refine ⟨disk, ?_, fun _ => ⟨hsound, hholds ▸ hheld⟩⟩
        rw [indexIn, hread]
        exact hdisk
    refine ⟨s₁, ?_, hs₁⟩
    rw [loadIndexes, bind_ok hbind, if_pos rfl]
    rfl

end Loading

/-! ### A table of two rows -/

/-- The table of one row and another row, whose value comes before the first one's. -/
def twoRowTable : OnDisk (KeyMap .nowhere) (Table (KeyMap .nowhere)) :=
  { oneRowTable with obj := oneRowTable.obj.inserted ⟨[.int 3]⟩ }

theorem twoRowTable_sound : twoRowTable.obj.Sound :=
  inserted_sound (s := oneRowTable) oneRowTable_sound (accepted_of_returned (by decide +kernel))
    (by decide)

theorem twoRowTable_row {id : RecordId} {r : Record}
    (hr : twoRowTable.obj.records id = some r) : ∃ i, r = ⟨[.int i]⟩ := by
  by_cases hsecond : id = 2
  · subst hsecond
    cases hr
    exact ⟨3, rfl⟩
  by_cases hfirst : id = 1
  · subst hfirst
    cases hr
    exact ⟨5, rfl⟩
  have hnone : twoRowTable.obj.records id = none :=
    (Function.update_of_ne hsecond _ _).trans (Function.update_of_ne hfirst _ _)
  rw [hnone] at hr
  cases hr

theorem twoRowTable_exact : twoRowTable.obj.Exact where
  columns_lt := by decide
  order_lt := by decide
  arity id _ r hr := by
    obtain ⟨i, rfl⟩ := twoRowTable_row hr
    rfl
  name_lt := by decide
  nextId_lt := by decide
  columns c hc := by
    obtain rfl := List.mem_singleton.mp hc
    exact ⟨by decide, rfl, (fun s hs => by cases hs), fun _ => rfl⟩
  ids_lt := by decide
  values id r hr v hv s hs := by
    obtain ⟨i, rfl⟩ := twoRowTable_row hr
    obtain rfl := List.mem_singleton.mp hv
    cases hs
  order_nodup := twoRowTable_sound.order_nodup
  mem_order := twoRowTable_sound.mem_order

theorem twoRowTable_keyable : ∀ col ∈ twoRowTable.obj.schema.indexedColumns,
    twoRowTable.obj.Keyable col := fun _ hcol =>
  ⟨fun _ _ hr => twoRowTable_sound.toAgrees.indexable hr hcol,
    fun _ _ _ _ hi hj hv => twoRowTable_sound.value_injective hcol hi hj hv⟩

/-- What a save of the table has left when the process ends. -/
def savedFiles : FileSystem (KeyMap .nowhere) :=
  let s := stateOf (save oneColumnPath twoRowTable)
  Dbms.syncIndexes s.obj s.fs (List.range s.obj.schema.columns.length)

/-- The table from a file of version 2, whose block lists the ids the other way round, and
from the files of version 3 that saving it has left. -/
theorem load_versions_twoRows :
    (∃ s', load (fun _ => 0) oneColumnPath (⟨{}, (∅ : FileSystem (KeyMap .nowhere)).write oneColumnPath
        (.bytes ((twoRowTable.obj.contents twoRowTable_exact.toStorable).file 2 ++
          writeBlocks [(0, [2, 1])]))⟩) = .ok () s' ∧
      twoRowTable.obj.Built oneColumnPath twoRowTable.obj.schema.indexedColumns s'.obj) ∧
    ∃ s', load (fun _ => 0) oneColumnPath ⟨{}, savedFiles⟩ = .ok () s' ∧
      twoRowTable.obj.Built oneColumnPath twoRowTable.obj.schema.indexedColumns s'.obj := by
  have hblocks : twoRowTable.obj.Blocks [(0, [2, 1])] :=
    ⟨by decide, by decide, by decide, by decide, by decide +kernel, by decide +kernel⟩
  have hindexes : ∀ col ∈ twoRowTable.obj.schema.indexedColumns,
      ∃ d, twoRowTable.obj.indexes col = some d ∧ twoRowTable.obj.Reflects col d := by
    intro col hcol
    obtain ⟨m, hm, hagree⟩ := twoRowTable_sound.agree col hcol
    exact ⟨m, hm, hagree.reflects⟩
  have hsaves : returned (save oneColumnPath twoRowTable) = true := by decide +kernel
  have hexact := fun col (_ : col ∈ twoRowTable.obj.schema.indexedColumns) =>
    buildsExactly_keyMap twoRowTable.obj col
  constructor
  · apply (load_versions (s := ⟨{}, _⟩) twoRowTable_exact
      (.blocks _ _ hblocks (FileSystem.read_write_self _ _ _)) _).1 twoRowTable_sound.typed
      twoRowTable_keyable hexact
    intro _ col _
    exact opens_of_missing (FileSystem.read_write_ne _ _ (oneColumnPath.indexFile_ne col))
  · cases hsave : save oneColumnPath twoRowTable with
    | error e s' =>
      rw [hsave] at hsaves
      cases hsaves
    | ok _ s' =>
      have hfiles : savedFiles =
          Dbms.syncIndexes s'.obj s'.fs (List.range s'.obj.schema.columns.length) := by
        rw [savedFiles, hsave]
        rfl
      rw [hfiles]
      exact (load_versions (s := ⟨{}, _⟩) twoRowTable_exact
        (.saved twoRowTable s' ⟨rfl, rfl, rfl, rfl, rfl⟩ hindexes hsave) _).1
        twoRowTable_sound.typed twoRowTable_keyable hexact fun h => absurd rfl h

end Table
end CwDb.Storage
