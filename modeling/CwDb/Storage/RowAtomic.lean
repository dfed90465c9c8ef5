import CwDb.Storage.TableMirror
import CwDb.Storage.Index.Held

/-! When a row operation that throws has changed nothing.

The table is over any index here, which may throw at any call and leave anything behind: of
lookups and removals that return `KeyIndex` says what is needed, of insertions nothing. The
B+-tree is such an index.

The checks of a row operation change nothing. What comes after them is not undone: an
insertion has stored its record when an index throws, an update or an erasure has taken the
record's keys out of the indexes before the one that throws (`rowOp_atomic_iff`). -/
namespace CwDb.Storage
open Foundation DiskM

namespace Table

theorem mapIndexes_append {ι : Type} (g : Nat → ι → ι) (cols : List Nat) (col : Nat)
    (indexes : Nat → Option ι) : mapIndexes g (cols ++ [col]) indexes =
      Function.update (mapIndexes g cols indexes) col ((indexes col).map (g col)) := by
  funext c
  by_cases hc : c = col
  · rw [hc, Function.update_self, mapIndexes, if_pos (by simp)]
  · rw [Function.update_of_ne hc, mapIndexes, mapIndexes]
    simp [hc]

theorem mapIndexes_map {ι α : Type} (g : Nat → ι → ι) {cols : List Nat} {col : Nat} (hcol : col ∈ cols)
    (indexes : Nat → Option ι) (p : ι → α) :
    (mapIndexes g cols indexes col).map p = (indexes col).map fun d => p (g col d) := by
  rw [mapIndexes, if_pos hcol, Option.map_map]
  rfl

variable {ι : Type} [TableIndex ι]

theorem stateOf_onIndex {α : Type} (s : OnDisk ι (Table ι)) (col : Nat) (d : ι)
    (x : EStateM Exn ι α) : stateOf (onIndex col d x s) =
      s.withIndexes (Function.update s.obj.indexes col (some (stateOf (x d)))) := by
  cases hx : x d with
  | ok a d' => rw [onIndex_ok hx, stateOf_ok, stateOf_ok]
  | error e d' => rw [onIndex_error hx, stateOf_error, stateOf_error]

/-! ### Loops that halt -/

section Halting
variable {s : OnDisk ι (Table ι)} {f : Nat → TableM ι Unit} {y : Nat → EStateM Exn ι Unit}
  {done : List Nat} {col : Nat}

/-- What `y` throws at, on the index of the column as it is now. -/
def Fails (s : OnDisk ι (Table ι)) (y : Nat → EStateM Exn ι Unit) (col : Nat) : Prop :=
  ∃ d e d', s.obj.indexes col = some d ∧ y col d = .error e d'

/-- The index of a column after `y`, returned or thrown. -/
def ran (y : Nat → EStateM Exn ι Unit) (col : Nat) (d : ι) : ι := stateOf (y col d)

/-- A column at which the loop over the indexed columns throws, and those before it. -/
structure HaltsAt (s : OnDisk ι (Table ι)) (y : Nat → EStateM Exn ι Unit) (done : List Nat)
    (col : Nat) : Prop where
  columns : done ++ [col] <+: s.obj.schema.indexedColumns
  before : ∀ c ∈ done, ¬ Fails s y c
  fails : Fails s y col

theorem ran_of_not_fails {d : ι} (h : ¬ Fails s y col) (hd : s.obj.indexes col = some d) :
    y col d = .ok () (ran y col d) := by
  cases hy : y col d with
  | ok u d' => rw [ran, hy, stateOf_ok]
  | error e d' => exact absurd ⟨d, e, d', hd, hy⟩ h

theorem first_or_none (P : Nat → Prop) (cols : List Nat) : (∀ c ∈ cols, ¬ P c) ∨
    ∃ done col, done ++ [col] <+: cols ∧ (∀ c ∈ done, ¬ P c) ∧ P col := by
  induction cols with
  | nil => exact .inl (List.forall_mem_nil _)
  | cons c cols ih =>
    by_cases hc : P c
    · exact .inr ⟨[], c, ⟨cols, rfl⟩, List.forall_mem_nil _, hc⟩
    · rcases ih with hnone | ⟨done, col, ⟨rest, rfl⟩, hdone, hcol⟩
      · exact .inl (List.forall_mem_cons.mpr ⟨hc, hnone⟩)
      · exact .inr ⟨c :: done, col, ⟨rest, rfl⟩, List.forall_mem_cons.mpr ⟨hc, hdone⟩, hcol⟩

theorem returns_or_halts (s : OnDisk ι (Table ι)) (y : Nat → EStateM Exn ι Unit) :
    (∀ c ∈ s.obj.schema.indexedColumns, ¬ Fails s y c) ∨ ∃ done col, HaltsAt s y done col := by
  rcases first_or_none (Fails s y) s.obj.schema.indexedColumns with h | ⟨done, col, h₁, h₂, h₃⟩
  · exact .inl h
  · exact .inr ⟨done, col, h₁, h₂, h₃⟩

theorem HaltsAt.mem (h : HaltsAt s y done col) : col ∈ s.obj.schema.indexedColumns :=
  h.columns.subset (List.mem_append_right _ (List.mem_singleton_self col))

theorem HaltsAt.notMem (h : HaltsAt s y done col) : col ∉ done := fun hmem => h.before col hmem h.fails

theorem eachColumn_append (f : Nat → TableM ι Unit) (cols cols' : List Nat) :
    eachColumn f (cols ++ cols') s = (eachColumn f cols >>= fun _ => eachColumn f cols') s := by
  induction cols generalizing s with
  | nil => rfl
  | cons c cols ih =>
    rw [List.cons_append, eachColumn, eachColumn, bind_assoc]
    cases h : f c s with
    | ok u t =>
      rw [bind_ok h, bind_ok h]
      exact ih
    | error e t => rw [bind_error h, bind_error h]

theorem IndexLoop.returns (hf : IndexLoop f y) (hs : s.obj.Opened)
    (h : ∀ c ∈ s.obj.schema.indexedColumns, ¬ Fails s y c) :
    eachColumn f s.obj.schema.indexedColumns s =
      .ok () (s.withIndexes (mapIndexes (ran y) s.obj.schema.indexedColumns s.obj.indexes)) :=
  hf.run_ok hs s.obj.schema.indexedColumns_nodup (fun _ hc => hc)
    fun c hc _ hd => ran_of_not_fails (h c hc) hd

/-- The indexes up to the one that throws are changed, that one as it is left by the throw. -/
theorem IndexLoop.halts (hf : IndexLoop f y) (hs : s.obj.Opened) (h : HaltsAt s y done col) :
    ∃ e, eachColumn f s.obj.schema.indexedColumns s =
      .error e (s.withIndexes (mapIndexes (ran y) (done ++ [col]) s.obj.indexes)) := by
  have hmem := h.mem
  have hnot := h.notMem
  obtain ⟨d, e, d', hd, hy⟩ := h.fails
  obtain ⟨rest, hcols⟩ := h.columns
  have hnodup : done.Nodup := by
    have hall := s.obj.schema.indexedColumns_nodup
    rw [← hcols, List.append_assoc] at hall
    exact (List.nodup_append.mp hall).1
  have hdone := hf.run_ok hs hnodup
    (fun c hc => hcols ▸ List.mem_append_left _ (List.mem_append_left _ hc))
    fun c hc _ hd => ran_of_not_fails (h.before c hc) hd
  have hopen : (s.withIndexes (mapIndexes (ran y) done s.obj.indexes)).obj.Opened := by
    refine ⟨hs.bound, fun c hc => ?_⟩
    obtain ⟨dc, hdc⟩ := Option.isSome_iff_exists.mp (hs.isOpen c hc)
    rw [OnDisk.withIndexes_indexes, mapIndexes, hdc]
    split <;> rfl
  have hd₁ : (s.withIndexes (mapIndexes (ran y) done s.obj.indexes)).obj.indexes col = some d := by
    rw [OnDisk.withIndexes_indexes, mapIndexes, if_neg hnot, hd]
  refine ⟨e, ?_⟩
  rw [← hcols, List.append_assoc, eachColumn_append, bind_ok hdone, List.singleton_append, eachColumn]
  refine bind_error ?_
  rw [hf _ hopen col hmem d hd₁, onIndex_error hy, OnDisk.withIndexes_twice,
    OnDisk.withIndexes_indexes, mapIndexes_append, hd, Option.map_some, ran, hy,
    stateOf_error]

end Halting

/-! ### Checks -/

section Checks
variable [IndexContents ι] {s : OnDisk ι (Table ι)}

/-- An index that holds what another does, and is as sound. -/
structure Akin (i j : Option ι) : Prop where
  holds : j.map IndexContents.holds = i.map IndexContents.holds
  sound : (∀ d ∈ i, IndexContents.Sound d) → ∀ d ∈ j, IndexContents.Sound d

theorem Akin.refl (i : Option ι) : Akin i i := ⟨rfl, fun h => h⟩

theorem Akin.trans {i j k : Option ι} (h : Akin i j) (h' : Akin j k) : Akin i k :=
  ⟨h'.holds.trans h.holds, fun hi => h'.sound (h.sound hi)⟩

/-- The same table and files, but for what lookups leave in the indexes. -/
def LookedUp (s t : OnDisk ι (Table ι)) : Prop :=
  ∃ indexes, t = s.withIndexes indexes ∧ ∀ col, Akin (s.obj.indexes col) (indexes col)

theorem LookedUp.refl (s : OnDisk ι (Table ι)) : LookedUp s s :=
  ⟨s.obj.indexes, rfl, fun _ => Akin.refl _⟩

variable [KeyIndex ι]

theorem akin_find {d : ι} (key : Value) (hd : IndexContents.Sound d) :
    Akin (some d) (some (stateOf (TableIndex.find key d))) where
  holds := congrArg some (KeyIndex.find_holds d key hd)
  sound _ d' hd' := by
    cases hd'
    exact KeyIndex.find_sound d key hd

/-- Sound indexes, where there is one. -/
def SoundIndexes (t : Table ι) : Prop :=
  ∀ col ∈ t.schema.indexedColumns, ∀ d, t.indexes col = some d → IndexContents.Sound d

theorem LookedUp.onFind {t : OnDisk ι (Table ι)} (hs : SoundIndexes s.obj) (h : LookedUp s t)
    {col : Nat} {d : ι} (key : Value) (hat : t.obj.indexAt col = some d) :
    LookedUp s (stateOf (onIndex col d (TableIndex.find key) t)) := by
  obtain ⟨indexes, rfl, hakin⟩ := h
  have hd : indexes col = some d := indexAt_eq_some hat
  have hcol : col ∈ s.obj.schema.indexedColumns := by
    refine (columnIsIndexed_iff _ col).mp ?_
    by_contra hnot
    rw [indexAt, if_neg (show ¬ (s.withIndexes indexes).obj.columnIsIndexed col = true from hnot)] at hat
    cases hat
  have hsound : IndexContents.Sound d :=
    (hakin col).sound (fun d' hd' => hs col hcol d' hd') d hd
  refine ⟨Function.update indexes col (some (stateOf (TableIndex.find key d))), stateOf_onIndex ..,
    fun c => ?_⟩
  by_cases hc : c = col
  · subst hc
    rw [Function.update_self]
    exact (hakin c).trans (hd ▸ akin_find key hsound)
  · rw [Function.update_of_ne hc]
    exact hakin c

theorem keeps_indexFind (hs : SoundIndexes s.obj) (col : Nat) (key : Value) :
    Keeps (LookedUp s) (indexFind col key) := by
  intro t h
  rw [indexFind, getObj_bind_apply]
  cases hat : t.obj.indexAt col with
  | none => exact h
  | some d =>
    have hfind := h.onFind hs key hat
    show LookedUp s (stateOf ((onIndex col d (TableIndex.find key) >>= fun it =>
      pure ((TableIndex.here (ι := ι) it).map Prod.snd)) t))
    rw [stateOf_bind_pure]
    exact hfind

/-- The checks change nothing, whatever comes out of them. -/
theorem keeps_enforceConstraints (hs : SoundIndexes s.obj) (r : Record) (existing : Option RecordId) :
    Keeps (LookedUp s) (enforceConstraints r existing) := by
  refine keeps_bind keeps_getObj fun t => ?_
  split
  · exact keeps_throw _
  · refine keeps_bind (keeps_fromExcept _) fun _ => keeps_eachColumn (fun col => ?_) _
    unfold checkUnique
    split
    · exact keeps_pure ()
    · refine keeps_bind (keeps_indexFind hs col _) fun found => keeps_bind keeps_getObj fun t => ?_
      split
      · exact keeps_throw _
      · exact keeps_pure ()

theorem lookedUp_enforceConstraints (hs : SoundIndexes s.obj) (r : Record)
    (existing : Option RecordId) : LookedUp s (stateOf (enforceConstraints r existing s)) :=
  keeps_enforceConstraints hs r existing s (.refl s)

end Checks

/-! ### Row operations -/

section Unfolding
variable {s s₁ : OnDisk ι (Table ι)}

theorem insert_of_checked {r : Record} (h : enforceConstraints r none s = .ok () s₁)
    (hfresh : s₁.obj.records s₁.obj.nextId = none) :
    Table.insert r s = (do
      installIntoIndexes s₁.obj.nextId r
      return s₁.obj.nextId) { s₁ with obj := s₁.obj.withRow r } := by
  have hstored : (s₁.obj.records s₁.obj.nextId).getD r = r := by rw [hfresh, Option.getD_none]
  rw [Table.insert, bind_ok h]
  show (installIntoIndexes s₁.obj.nextId ((s₁.obj.records s₁.obj.nextId).getD r) >>= _)
    { s₁ with obj := s₁.obj.withRow r } = _
  rw [hstored]

theorem erase_of_record {id : RecordId} {r : Record} (hr : s.obj.records id = some r) :
    Table.erase id s = (removeFromIndexes r >>= fun _ => modifyObj fun t => { t with
      records := Function.update t.records id none, order := t.order.erase id }) s := by
  rw [Table.erase, getObj_bind_apply, hr]

/-- The table with a record replaced, whose keys have been removed. -/
def replaced (s : OnDisk ι (Table ι)) (id : RecordId) (old new : Record) : OnDisk ι (Table ι) :=
  { s with obj := { s.obj with
      records := Function.update s.obj.records id (some new)
      indexes := mapIndexes (ran (removeStep old)) s.obj.schema.indexedColumns s.obj.indexes } }

theorem replaced_opened (h : s.obj.Opened) (id : RecordId) (old new : Record) :
    (replaced s id old new).obj.Opened := by
  refine ⟨h.bound, fun c hc => ?_⟩
  obtain ⟨d, hd⟩ := Option.isSome_iff_exists.mp (h.isOpen c hc)
  show (mapIndexes (ran (removeStep old)) s.obj.schema.indexedColumns s.obj.indexes c).isSome = true
  rw [mapIndexes_of_mem (show c ∈ s.obj.schema.indexedColumns from hc) hd]
  rfl

theorem update_of_record {id : RecordId} {old : Record} (assignments : List (Nat × Value))
    (hold : s.obj.records id = some old) :
    Table.update id assignments s = (enforceConstraints (old.assign assignments) (some id) >>=
      fun _ => removeFromIndexes old >>= fun _ =>
        modifyObj (fun t => { t with
          records := Function.update t.records id (some (old.assign assignments)) }) >>= fun _ =>
        installIntoIndexes id (old.assign assignments)) s := by
  rw [Table.update, getObj_bind_apply, hold]

theorem update_of_removed {id : RecordId} {old : Record} {assignments : List (Nat × Value)}
    (hold : s.obj.records id = some old)
    (h : enforceConstraints (old.assign assignments) (some id) s = .ok () s₁)
    (hremove : removeFromIndexes old s₁ = .ok () (s₁.withIndexes
      (mapIndexes (ran (removeStep old)) s₁.obj.schema.indexedColumns s₁.obj.indexes))) :
    Table.update id assignments s =
      eachColumn (installColumn id (old.assign assignments)) s₁.obj.schema.indexedColumns
        (replaced s₁ id old (old.assign assignments)) := by
  rw [update_of_record assignments hold, bind_ok h, bind_ok hremove, modifyObj_bind_apply,
    installIntoIndexes]
  rfl

end Unfolding

section Rows
variable [IndexContents ι] {s s₁ s' : OnDisk ι (Table ι)}

/-- Every indexed column has its index, which holds exactly the records' values there; the
next id is no record's. -/
structure Matching (t : Table ι) : Prop where
  bound : t.datPath.isSome = true
  fresh : t.records t.nextId = none
  agree : ∀ col ∈ t.schema.indexedColumns, ∃ d, t.indexes col = some d ∧ t.Reflects col d

/-- The same records, in the same order, and indexes that hold the same. -/
structure SameContents (t t' : Table ι) : Prop where
  records : t'.records = t.records
  order : t'.order = t.order
  indexes : ∀ col, (t'.indexes col).map IndexContents.holds = (t.indexes col).map IndexContents.holds

theorem SameContents.refl (t : Table ι) : t.SameContents t := ⟨rfl, rfl, fun _ => rfl⟩

theorem SameContents.symm {t t' : Table ι} (h : t.SameContents t') : t'.SameContents t :=
  ⟨h.records.symm, h.order.symm, fun col => (h.indexes col).symm⟩

theorem SameContents.trans {t t' t'' : Table ι} (h : t.SameContents t') (h' : t'.SameContents t'') :
    t.SameContents t'' :=
  ⟨h'.records.trans h.records, h'.order.trans h.order,
    fun col => (h'.indexes col).trans (h.indexes col)⟩

/-- The removal of a record's keys throws at an index, and not at the first one with that
index left as it was. -/
def RemovalBreaks (s : OnDisk ι (Table ι)) (r : Record) : Prop :=
  ∃ done col, HaltsAt s (removeStep r) done col ∧
    (done ≠ [] ∨ (s.obj.indexes col).map (fun d => IndexContents.holds (ran (removeStep r) col d)) ≠
      (s.obj.indexes col).map IndexContents.holds)

/-- The indexes when the insertion of a record's keys has halted. -/
def haltedIndexes (s : OnDisk ι (Table ι)) (id : RecordId) (old new : Record) (done : List Nat)
    (col : Nat) : Nat → Option ι :=
  mapIndexes (ran (installStep id new)) (done ++ [col]) (replaced s id old new).obj.indexes

/-- The keys of the old record are removed, the insertion of the new ones throws at an index,
and it is another record or some index is left with other keys. -/
def ReplacementBreaks (s : OnDisk ι (Table ι)) (id : RecordId) (old new : Record) : Prop :=
  (∀ c ∈ s.obj.schema.indexedColumns, ¬ Fails s (removeStep old) c) ∧
    ∃ done col, HaltsAt (replaced s id old new) (installStep id new) done col ∧
      (new ≠ old ∨ ∃ c, (haltedIndexes s id old new done col c).map IndexContents.holds ≠
        (s.obj.indexes c).map IndexContents.holds)

/-- An index throws behind the checks, where the operation has already changed something. -/
def RowOp.Breaks (s : OnDisk ι (Table ι)) : RowOp → Prop
  | .insert r => ∃ s₁, enforceConstraints r none s = .ok () s₁ ∧
    ∃ col ∈ s.obj.schema.indexedColumns, Fails s₁ (installStep s.obj.nextId r) col
  | .update id assignments => ∃ old s₁, s.obj.records id = some old ∧
    enforceConstraints (old.assign assignments) (some id) s = .ok () s₁ ∧
      (RemovalBreaks s₁ old ∨ ReplacementBreaks s₁ id old (old.assign assignments))
  | .erase id => ∃ r, s.obj.records id = some r ∧ RemovalBreaks s r

theorem Matching.opened (h : s.obj.Matching) : s.obj.Opened where
  bound := h.bound
  isOpen col hcol := by
    obtain ⟨d, hd, -⟩ := h.agree col hcol
    rw [hd]
    rfl

theorem Matching.soundIndexes (h : s.obj.Matching) : SoundIndexes s.obj := by
  intro col hcol d hd
  obtain ⟨d', hd', hreflects⟩ := h.agree col hcol
  rw [hd] at hd'
  cases hd'
  exact hreflects.sound

theorem LookedUp.sameContents (h : LookedUp s s₁) : s.obj.SameContents s₁.obj := by
  obtain ⟨indexes, rfl, hakin⟩ := h
  exact ⟨rfl, rfl, fun col => (hakin col).holds⟩

theorem LookedUp.matching (h : LookedUp s s₁) (hs : s.obj.Matching) : s₁.obj.Matching := by
  obtain ⟨indexes, rfl, hakin⟩ := h
  refine ⟨hs.bound, hs.fresh, fun col hcol => ?_⟩
  obtain ⟨d, hd, hreflects⟩ := hs.agree col hcol
  have hholds := (hakin col).holds
  rw [hd, Option.map_some, Option.map_eq_some_iff] at hholds
  obtain ⟨d', hd', hsame⟩ := hholds
  refine ⟨d', hd', (hakin col).sound (fun x hx => ?_) d' hd', fun v id => ?_⟩
  · rw [hd] at hx
    cases hx
    exact hreflects.sound
  · rw [hsame]
    exact hreflects.holds v id

theorem LookedUp.same (h : LookedUp s s₁) : s₁.obj.schema = s.obj.schema ∧
    s₁.obj.records = s.obj.records ∧ s₁.obj.nextId = s.obj.nextId := by
  obtain ⟨indexes, rfl, -⟩ := h
  exact ⟨rfl, rfl, rfl⟩

/-- A replacement whose installation halts leaves what was there just when it does not break. -/
theorem replacement_halted {id : RecordId} {old new : Record} (hold : s.obj.records id = some old)
    (hs : s.obj.Matching) (hremoved : ∀ c ∈ s.obj.schema.indexedColumns, ¬ Fails s (removeStep old) c)
    {done : List Nat} {col : Nat}
    (hhalt : HaltsAt (replaced s id old new) (installStep id new) done col) :
    ∃ e s', eachColumn (installColumn id new) s.obj.schema.indexedColumns (replaced s id old new) =
      .error e s' ∧ (s.obj.SameContents s'.obj ↔ ¬ ReplacementBreaks s id old new) := by
  have hopen := replaced_opened hs.opened id old new
  obtain ⟨e, hrun⟩ := (install_loop ι id new).halts hopen hhalt
  refine ⟨e, _, hrun, ?_⟩
  constructor
  · rintro hsame ⟨-, done', col', hhalt', hbroken⟩
    obtain ⟨e', hrun'⟩ := (install_loop ι id new).halts hopen hhalt'
    rw [hrun] at hrun'
    injection hrun' with _ hstate
    have hindexes : haltedIndexes s id old new done col = haltedIndexes s id old new done' col' :=
      congrArg (fun u : OnDisk ι (Table ι) => u.obj.indexes) hstate
    rcases hbroken with hnew | ⟨c, hc⟩
    · have hrecord : Function.update s.obj.records id (some new) id = s.obj.records id :=
        congrFun hsame.records id
      rw [Function.update_self, hold] at hrecord
      exact hnew (Option.some.inj hrecord)
    · rw [← hindexes] at hc
      exact hc (hsame.indexes c)
  · intro hspared
    have hkept : ¬ (new ≠ old ∨ ∃ c, (haltedIndexes s id old new done col c).map IndexContents.holds ≠
        (s.obj.indexes c).map IndexContents.holds) := fun hbroken =>
      hspared ⟨hremoved, done, col, hhalt, hbroken⟩
    rw [not_or, not_not, not_exists] at hkept
    obtain ⟨rfl, hindexes⟩ := hkept
    refine ⟨?_, rfl, fun c => not_not.mp (hindexes c)⟩
    show Function.update s.obj.records id (some new) = s.obj.records
    rw [← hold, Function.update_eq_self]

variable [KeyIndex ι]

/-- Checks that return have only looked something up, and so have checks that throw. -/
theorem Matching.checked (hs : s.obj.Matching) {r : Record} {existing : Option RecordId}
    (h : enforceConstraints r existing s = .ok () s₁) : LookedUp s s₁ := by
  have hlooked := lookedUp_enforceConstraints hs.soundIndexes r existing
  rw [h] at hlooked
  exact hlooked

theorem Matching.rejected (hs : s.obj.Matching) {r : Record} {existing : Option RecordId} {e : Exn}
    (h : enforceConstraints r existing s = .error e s₁) : s.obj.SameContents s₁.obj := by
  have hlooked := lookedUp_enforceConstraints hs.soundIndexes r existing
  rw [h] at hlooked
  exact hlooked.sameContents

/-! ### Atomicity -/

/-- A removal that returned has left its index with other keys. -/
theorem Matching.removed (hs : s.obj.Matching) {id : RecordId} {r : Record}
    (hr : s.obj.records id = some r) {col : Nat} (hcol : col ∈ s.obj.schema.indexedColumns)
    (hnot : ¬ Fails s (removeStep r) col) :
    (s.obj.indexes col).map (fun d => IndexContents.holds (ran (removeStep r) col d)) ≠
      (s.obj.indexes col).map IndexContents.holds := by
  obtain ⟨d, hd, hsound, hholds⟩ := hs.agree col hcol
  have hheld : IndexContents.holds d (r.value col) = some id := (hholds _ _).mpr ⟨r, hr, rfl⟩
  have hsome : (IndexContents.holds d (r.value col)).isSome = true := by
    rw [hheld]
    rfl
  have hnull : ¬ (r.value col).isNull = true := by
    rw [KeyIndex.holds_key d _ hsound hsome]
    exact Bool.false_ne_true
  have hrun := ran_of_not_fails hnot hd
  rw [removeStep, if_neg hnull] at hrun
  obtain ⟨there, d', herase, hpure⟩ := bind_eq_ok.mp hrun
  rw [pure_apply] at hpure
  injection hpure with _ hd'
  have hgone := KeyIndex.erase_holds d d' _ there hsound hsome herase
  rw [hd, Option.map_some, Option.map_some, ← hd']
  intro hsame
  rw [congrFun (Option.some.inj hsame) (r.value col), hheld] at hgone
  cases hgone

/-- Where the removal of a record's keys halts, the indexes are left as they were just when it
does not break. -/
theorem Matching.halted (hs : s.obj.Matching) {id : RecordId} {r : Record}
    (hr : s.obj.records id = some r) {done : List Nat} {col : Nat}
    (h : HaltsAt s (removeStep r) done col) :
    (∀ c, (mapIndexes (ran (removeStep r)) (done ++ [col]) s.obj.indexes c).map IndexContents.holds =
      (s.obj.indexes c).map IndexContents.holds) ↔ ¬ (done ≠ [] ∨
        (s.obj.indexes col).map (fun d => IndexContents.holds (ran (removeStep r) col d)) ≠
          (s.obj.indexes col).map IndexContents.holds) := by
  have hlast : col ∈ done ++ [col] := List.mem_append_right _ (List.mem_singleton_self col)
  constructor
  · rintro hsame (hdone | hchanged)
    · obtain ⟨c, hc⟩ := List.exists_mem_of_ne_nil done hdone
      have hmem : c ∈ s.obj.schema.indexedColumns := h.columns.subset (List.mem_append_left _ hc)
      apply hs.removed hr hmem (h.before c hc)
      rw [← mapIndexes_map _ (List.mem_append_left [col] hc)]
      exact hsame c
    · apply hchanged
      rw [← mapIndexes_map _ hlast]
      exact hsame col
  · intro hkept c
    rw [not_or, not_not, not_not] at hkept
    obtain ⟨rfl, hcol⟩ := hkept
    by_cases hc : c = col
    · rw [hc, mapIndexes_map _ hlast]
      exact hcol
    · rw [mapIndexes, if_neg (by simpa using hc)]

/-- The removal of the keys of a record, that throws. -/
theorem Matching.removal (hs : s.obj.Matching) {id : RecordId} {r : Record}
    (hr : s.obj.records id = some r) :
    (removeFromIndexes r s = .ok () (s.withIndexes
        (mapIndexes (ran (removeStep r)) s.obj.schema.indexedColumns s.obj.indexes)) ∧
      (∀ c ∈ s.obj.schema.indexedColumns, ¬ Fails s (removeStep r) c) ∧ ¬ RemovalBreaks s r) ∨
    ∃ e s', removeFromIndexes r s = .error e s' ∧ (∃ c ∈ s.obj.schema.indexedColumns, Fails s (removeStep r) c) ∧
      (s.obj.SameContents s'.obj ↔ ¬ RemovalBreaks s r) := by
  rw [removeFromIndexes, getObj_bind_apply]
  rcases returns_or_halts s (removeStep r) with hnone | ⟨done, col, hhalt⟩
  · refine .inl ⟨(remove_loop ι r).returns hs.opened hnone, hnone, ?_⟩
    rintro ⟨done, col, hhalt, -⟩
    exact hnone col hhalt.mem hhalt.fails
  · obtain ⟨e, hrun⟩ := (remove_loop ι r).halts hs.opened hhalt
    refine .inr ⟨e, _, hrun, ⟨col, hhalt.mem, hhalt.fails⟩, ?_⟩
    constructor
    · rintro hsame ⟨done', col', hhalt', hbroken⟩
      obtain ⟨e', hrun'⟩ := (remove_loop ι r).halts hs.opened hhalt'
      rw [hrun] at hrun'
      injection hrun' with _ hstate
      refine (hs.halted hr hhalt').mp (fun c => ?_) hbroken
      have hindexes := congrArg (fun u : OnDisk ι (Table ι) => u.obj.indexes) hstate
      rw [OnDisk.withIndexes_indexes, OnDisk.withIndexes_indexes] at hindexes
      rw [← hindexes]
      exact hsame.indexes c
    · intro hspared
      refine ⟨rfl, rfl, (hs.halted hr hhalt).mpr fun hbroken => hspared ⟨done, col, hhalt, hbroken⟩⟩

theorem insert_atomic_iff (hs : s.obj.Matching) (r : Record) :
    (∀ e s', Table.insert r s = .error e s' → s.obj.SameContents s'.obj) ↔
      ¬ (RowOp.insert r).Breaks s := by
  cases h : enforceConstraints r none s with
  | error e s₁ =>
    refine iff_of_true (fun e' s' hrun => ?_) ?_
    · rw [Table.insert, bind_error h] at hrun
      cases hrun
      exact hs.rejected h
    · rintro ⟨s₂, hok, -⟩
      rw [h] at hok
      cases hok
  | ok u s₁ =>
    have hlooked := hs.checked h
    have hs₁ := hlooked.matching hs
    obtain ⟨hschema, -, hnext⟩ := hlooked.same
    have hopen : (s₁.obj.withRow r).Opened := ⟨hs₁.bound, hs₁.opened.isOpen⟩
    rw [insert_of_checked h hs₁.fresh, installIntoIndexes]
    rcases returns_or_halts { s₁ with obj := s₁.obj.withRow r } (installStep s₁.obj.nextId r) with
      hnone | ⟨done, col, hhalt⟩
    · refine iff_of_true (fun e s' hrun => ?_) ?_
      · rw [bind_pure_eq_error, getObj_bind_apply] at hrun
        rw [show eachColumn _ _ _ = _ from (install_loop ι s₁.obj.nextId r).returns
          (s := { s₁ with obj := s₁.obj.withRow r }) hopen hnone] at hrun
        cases hrun
      · rintro ⟨s₂, hok, col, hcol, hfails⟩
        rw [h] at hok
        cases hok
        rw [← hnext] at hfails
        exact hnone col (hschema ▸ hcol) hfails
    · refine iff_of_false (fun hatomic => ?_) (not_not_intro ⟨s₁, h, col, hschema ▸ hhalt.mem, ?_⟩)
      · obtain ⟨e, hrun⟩ := (install_loop ι s₁.obj.nextId r).halts hopen hhalt
        have horder := (hatomic e _ (bind_pure_eq_error.mpr hrun)).order
        rw [OnDisk.withIndexes_order, ← hlooked.sameContents.order] at horder
        exact absurd (congrArg List.length horder) (by simp [withRow])
      · rw [← hnext]
        exact hhalt.fails

theorem erase_atomic_iff (hs : s.obj.Matching) (id : RecordId) :
    (∀ e s', Table.erase id s = .error e s' → s.obj.SameContents s'.obj) ↔
      ¬ (RowOp.erase id).Breaks s := by
  cases hr : s.obj.records id with
  | none =>
    refine iff_of_true (fun e s' hrun => ?_) ?_
    · rw [Table.erase, getObj_bind_apply, hr] at hrun
      cases hrun
    rintro ⟨r, hr', -⟩
    rw [hr] at hr'
    cases hr'
  | some r =>
    have hbreaks : (RowOp.erase id).Breaks s ↔ RemovalBreaks s r := by
      rw [RowOp.Breaks, hr]
      constructor
      · rintro ⟨r', hr', hbreaks⟩
        exact Option.some.inj hr' ▸ hbreaks
      · intro hbreaks
        exact ⟨r, rfl, hbreaks⟩
    rw [hbreaks, erase_of_record hr]
    rcases hs.removal hr with ⟨hrun, -, hspared⟩ | ⟨e, s', hrun, -, hiff⟩
    · refine iff_of_true (fun e s' herror => ?_) hspared
      rw [bind_ok hrun] at herror
      cases herror
    · rw [← hiff]
      constructor
      · intro hatomic
        exact hatomic e s' (bind_error hrun)
      · intro hsame e' s'' herror
        rw [bind_error hrun] at herror
        cases herror
        exact hsame

theorem update_atomic_iff (hs : s.obj.Matching) (id : RecordId) (assignments : List (Nat × Value)) :
    (∀ e s', Table.update id assignments s = .error e s' → s.obj.SameContents s'.obj) ↔
      ¬ (RowOp.update id assignments).Breaks s := by
  cases hold : s.obj.records id with
  | none =>
    refine iff_of_true (fun e s' hrun => ?_) ?_
    · rw [Table.update, getObj_bind_apply, hold] at hrun
      cases hrun
      exact .refl _
    · rintro ⟨old, s₂, hold', -⟩
      rw [hold] at hold'
      cases hold'
  | some old =>
    cases h : enforceConstraints (old.assign assignments) (some id) s with
    | error e s₁ =>
      refine iff_of_true (fun e' s' hrun => ?_) ?_
      · rw [update_of_record assignments hold, bind_error h] at hrun
        cases hrun
        exact hs.rejected h
      · rintro ⟨old', s₂, hold', hok, -⟩
        rw [hold] at hold'
        cases hold'
        rw [h] at hok
        cases hok
    | ok u s₁ =>
      have hlooked := hs.checked h
      have hs₁ := hlooked.matching hs
      have hsame := hlooked.sameContents
      have hold₁ : s₁.obj.records id = some old := hlooked.same.2.1.symm ▸ hold
      have hbreaks : (RowOp.update id assignments).Breaks s ↔
          RemovalBreaks s₁ old ∨ ReplacementBreaks s₁ id old (old.assign assignments) := by
        constructor
        · rintro ⟨old', s₂, hold', hok, hbreaks⟩
          rw [hold] at hold'
          cases hold'
          rw [h] at hok
          cases hok
          exact hbreaks
        · exact fun hbreaks => ⟨old, s₁, hold, h, hbreaks⟩
      have hback : ∀ t, s.obj.SameContents t ↔ s₁.obj.SameContents t := fun t =>
        ⟨hsame.symm.trans, hsame.trans⟩
      rw [hbreaks]
      rcases hs₁.removal hold₁ with ⟨hremove, hnone, hspared⟩ | ⟨e, s', hremove, ⟨c, hc, hfails⟩, hiff⟩
      · rw [update_of_removed hold h hremove, or_iff_right hspared]
        rcases returns_or_halts (replaced s₁ id old (old.assign assignments))
          (installStep id (old.assign assignments)) with hinstalled | ⟨done, col, hhalt⟩
        · have hrun : eachColumn (installColumn id (old.assign assignments))
              s₁.obj.schema.indexedColumns (replaced s₁ id old (old.assign assignments)) = .ok () _ :=
            (install_loop ι id (old.assign assignments)).returns
              (replaced_opened hs₁.opened id old _) hinstalled
          refine iff_of_true (fun e s' herror => ?_) ?_
          · rw [hrun] at herror
            cases herror
          · rintro ⟨-, done, col, hhalt, -⟩
            exact hinstalled col hhalt.mem hhalt.fails
        · obtain ⟨e, s', hrun, hiff⟩ := replacement_halted hold₁ hs₁ hnone hhalt
          rw [← hiff, ← hback, hrun]
          constructor
          · exact fun hatomic => hatomic e s' rfl
          · rintro hsame e' s'' herror
            cases herror
            exact hsame
      · have hnot : ¬ ReplacementBreaks s₁ id old (old.assign assignments) := fun hbreaks =>
          hbreaks.1 c hc hfails
        rw [update_of_record assignments hold, bind_ok h, or_iff_left hnot, ← hiff, ← hback, bind_error hremove]
        constructor
        · exact fun hatomic => hatomic e s' rfl
        · rintro hsame e' s'' herror
          cases herror
          exact hsame

/-- A row operation that throws leaves the records, their order and what the indexes hold, if
and only if no index throws where something has been changed. -/
theorem rowOp_atomic_iff (hs : s.obj.Matching) (op : RowOp) :
    (∀ e s', op.run s = .error e s' → s.obj.SameContents s'.obj) ↔ ¬ op.Breaks s := by
  cases op with
  | insert r =>
    rw [← insert_atomic_iff hs r]
    exact forall₂_congr fun e s' => imp_congr_left bind_pure_eq_error
  | update id assignments =>
    rw [← update_atomic_iff hs id assignments]
    exact forall₂_congr fun e s' => imp_congr_left bind_pure_eq_error
  | erase id =>
    rw [← erase_atomic_iff hs id]
    exact forall₂_congr fun e s' => imp_congr_left bind_pure_eq_error

end Rows

/-! ### A table of one indexed column -/

theorem Agrees.matching {lost : Lost} {t : Table (KeyMap lost)} (h : t.Agrees) : t.Matching where
  bound := h.bound
  fresh := h.fresh
  agree col hcol := by
    obtain ⟨m, hm, hagree⟩ := h.agree col hcol
    exact ⟨m, hm, hagree.reflects⟩

/-- A row whose key is there is refused, and leaves the table as it was. -/
theorem rowOp_atomic_duplicate :
    returned ((RowOp.insert ⟨[.int 5]⟩).run oneRowTable) = false ∧
      ∀ e s', (RowOp.insert ⟨[.int 5]⟩).run oneRowTable = .error e s' →
        oneRowTable.obj.SameContents s'.obj := by
  have hrefused : returned (enforceConstraints ⟨[.int 5]⟩ none oneRowTable) = false := by decide +kernel
  refine ⟨by decide +kernel, (rowOp_atomic_iff oneRowTable_sound.toAgrees.matching _).mpr ?_⟩
  rintro ⟨s₁, hok, -⟩
  rw [hok] at hrefused
  cases hrefused

/-- A new table of one indexed column of strings, over the B+-tree. -/
def newTable : OnDisk (DiskBspIndex NodeMap) (Table (DiskBspIndex NodeMap)) :=
  boundTable (DiskBspIndex NodeMap) (Str.ofString "t") (oneColumn .str) oneColumnPath

theorem newTable_matching : newTable.obj.Matching := by
  obtain ⟨s, l, hcreate, hs, hentries⟩ := DiskBspIndex.createEmpty_spec .str
  have hindex : newTable.obj.indexes 0 = some s := by
    have hmade : DiskBspIndex.made DiskBspIndex.createEmpty (.blank NodeMap.empty) = .ok s := by
      rw [DiskBspIndex.made, hcreate]
    rw [← Except.ok.inj hmade]
    rfl
  have hnil : (BPlusTree.leaf l).entries = [] := by rw [BPlusTree.entries_leaf, hentries]
  have hsorted : BPlusTree.Sorted LeafEntry.value (BPlusTree.leaf l) := by
    refine ⟨trivial, ?_⟩
    rw [hnil]
    exact List.Pairwise.nil
  have hstands := hs.stands hsorted
  refine ⟨rfl, rfl, fun col hcol => ?_⟩
  have hcols : newTable.obj.schema.indexedColumns = [0] := by decide +kernel
  rw [hcols, List.mem_singleton] at hcol
  subst hcol
  refine ⟨s, hindex, ⟨.str, 0, _, hstands, BPlusTree.narrow_leaf 255 l⟩, fun v id => ?_⟩
  show lookupKey v (DiskBspIndex.scanned s) = some id ↔ _
  rw [DiskBspIndex.scanned_stands hstands, DiskBspIndex.pairs, hnil]
  refine iff_of_false (by simp [lookupKey]) ?_
  rintro ⟨r, hr, -⟩
  have hnone : newTable.obj.records id = none := rfl
  rw [hnone] at hr
  cases hr

/-- The insertion of a string of 508 bytes into an indexed column throws, and leaves
its record in the table. -/
theorem not_rowOp_atomic :
    ¬ ∀ s : OnDisk (DiskBspIndex NodeMap) (Table (DiskBspIndex NodeMap)), s.obj.Matching →
      ∀ (op : RowOp) (e : Exn) (s' : OnDisk (DiskBspIndex NodeMap) (Table (DiskBspIndex NodeMap))),
        op.run s = .error e s' → s.obj.SameContents s'.obj := by
  intro hall
  have horder : (match (RowOp.insert ⟨[.str (List.replicate 508 97)]⟩).run newTable with
      | .ok _ _ => false
      | .error _ s' => decide (s'.obj.order = [1])) = true := by decide +kernel
  cases hrun : (RowOp.insert ⟨[.str (List.replicate 508 97)]⟩).run newTable with
  | ok a s' =>
    rw [hrun] at horder
    cases horder
  | error e s' =>
    rw [hrun, decide_eq_true_eq] at horder
    have hsame := (hall newTable newTable_matching _ e s' hrun).order
    rw [horder] at hsame
    exact absurd hsame (by decide +kernel)

end Table
end CwDb.Storage
