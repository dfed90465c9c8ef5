import CwDb.Sql.Statements
import CwDb.Foundation.Rewriting

/-! The order in which UPDATE changes its rows.

Each row is checked against the table as the rows before it left it. So the records of
a table are cells rewritten one after the other, which clash on a shared key, and the
order matters at one point: a row may take a key that a row later in the order still
holds. Apart from that the access path has no say in what an UPDATE does. -/
namespace CwDb.Sql
open Foundation Storage DiskM

variable {lost : Lost}

/-! ### Rows as cells -/

/-- What the assignments make of a record, where that passes the checks of a record by
itself and its keys fit the indexes. -/
def newRecord (t : Table (KeyMap lost)) (columns : List (Nat × Expr)) (r : Record) :
    Option Record :=
  match evalAssignments t r columns with
  | .error _ => none
  | .ok assigns =>
    let new := r.assign assigns
    if new.values.length = t.schema.columns.length ∧
        (Table.checkValues t.schema.columns new.values).isOk = true ∧
          ∀ col ∈ t.schema.indexedColumns, encodedValueSize (new.value col) ≤ kMaxIndexKeyBytes then
      some new
    else none

/-- Two records have the same value in an indexed column. -/
def SharesKey (schema : TableSchema) (r r' : Record) : Prop :=
  ∃ col ∈ schema.indexedColumns, r.value col = r'.value col

/-- A row of the list takes a key that a row later in the list holds before the UPDATE. -/
def TakesLaterKey (t : Table (KeyMap lost)) (columns : List (Nat × Expr)) (ids : List RecordId) :
    Prop := ¬ Unobstructed (newRecord t columns) (SharesKey t.schema) t.records ids

theorem sharesKey_symm {schema : TableSchema} (r r' : Record) (h : SharesKey schema r r') :
    SharesKey schema r' r := by
  obtain ⟨col, hcol, hval⟩ := h
  exact ⟨col, hcol, hval.symm⟩

theorem newRecord_eq_some {t : Table (KeyMap lost)} {columns : List (Nat × Expr)} {r new : Record} :
    newRecord t columns r = some new ↔ ∃ assigns, evalAssignments t r columns = .ok assigns ∧
      new = r.assign assigns ∧ new.values.length = t.schema.columns.length ∧
        Table.checkValues t.schema.columns new.values = .ok () ∧
          ∀ col ∈ t.schema.indexedColumns,
            encodedValueSize (new.value col) ≤ kMaxIndexKeyBytes := by
  have hok : ∀ {x : Except Exn Unit}, x.isOk = true ↔ x = .ok () := by
    intro x
    cases x with
    | error e => exact iff_of_false Bool.false_ne_true (fun h => by cases h)
    | ok u => exact iff_of_true rfl rfl
  unfold newRecord
  cases evalAssignments t r columns with
  | error e => simp
  | ok assigns =>
    simp only [Option.ite_none_right_eq_some, Option.some.injEq, hok, Except.ok.injEq,
      exists_eq_left']
    constructor
    · rintro ⟨h, rfl⟩
      exact ⟨rfl, h⟩
    · rintro ⟨rfl, h⟩
      exact ⟨h, rfl⟩

/-! Of a table, the evaluation of a row knows the schema and, for messages, the name. -/

theorem evalAtom_congr {t t' : Table (KeyMap lost)} (hschema : t.schema = t'.schema)
    (hname : t.name = t'.name) (r : Record) (e : Expr) : evalAtom t r e = evalAtom t' r e := by
  cases e with
  | columnRef column => simp only [evalAtom, Table.requireColumn, hschema, hname]
  | _ => rfl

theorem newRecord_congr {t t' : Table (KeyMap lost)} (hschema : t.schema = t'.schema)
    (hname : t.name = t'.name) : newRecord t = newRecord t' := by
  have heval : ∀ columns r, evalAssignments t r columns = evalAssignments t' r columns := by
    intro columns r
    induction columns with
    | nil => rfl
    | cons c columns ih => rw [evalAssignments, evalAssignments, ih, evalAtom_congr hschema hname]
  funext columns r
  unfold newRecord
  rw [heval, hschema]

/-! ### One row -/

section OneRow
variable {s s' : OnDisk (KeyMap lost) (Table (KeyMap lost))} {columns : List (Nat × Expr)}
  {id : RecordId}

/-- Between the rows of an UPDATE: the indexes agree, and the schema, the name and the
order are what they were. -/
structure Between (s s' : OnDisk (KeyMap lost) (Table (KeyMap lost))) : Prop where
  agrees : s'.obj.Agrees
  schema : s'.obj.schema = s.obj.schema
  name : s'.obj.name = s.obj.name
  order : s'.obj.order = s.obj.order

/-- A row that is changed is a cell that is rewritten. -/
theorem updateRow_rewrites (hs : s.obj.Agrees) (h : updateRow columns id s = .ok () s') :
    Rewrites (newRecord s.obj columns) (SharesKey s.obj.schema) s.obj.records id s'.obj.records ∧
      Between s s' := by
  cases hold : s.obj.records id with
  | none =>
    rw [updateRow_of_missing hold] at h
    cases h
  | some old =>
    cases he : evalAssignments s.obj old columns with
    | error e =>
      rw [updateRow_of_error hold he] at h
      cases h
    | ok assigns =>
      rw [updateRow_of_ok hold he] at h
      obtain ⟨old', hold', hacc, hkeys⟩ := Table.update_ok hs h
      obtain ⟨old'', hold'', -, rfl⟩ := Table.update_step hs h
      rw [hold] at hold' hold''
      injection hold' with hold'
      injection hold'' with hold''
      subst hold' hold''
      have hagrees := Table.updated_agrees hs hold hacc hkeys
      refine ⟨⟨old.assign assigns, ?_, ?_, rfl⟩, hagrees, rfl, rfl, rfl⟩
      · rw [hold, Option.bind_some, newRecord_eq_some]
        exact ⟨assigns, he, rfl, (Table.accepted_inv hacc).1, (Table.accepted_inv hacc).2.1, hkeys⟩
      · -- the indexes still agree, so the new record shares no key
        rintro j hj r hr ⟨col, hcol, hval⟩
        apply hj
        refine (hagrees.value_injective (i := id) hcol ?_ ?_ hval).symm
        · rw [Table.updated_records, if_pos rfl]
        · rw [Table.updated_records, if_neg hj, hr]

theorem updateRow_returns (hs : s.obj.Agrees) {cells : RecordId → Option Record}
    (h : Rewrites (newRecord s.obj columns) (SharesKey s.obj.schema) s.obj.records id cells) :
    ∃ s', updateRow columns id s = .ok () s' := by
  obtain ⟨new, hnew, hclear, -⟩ := h
  obtain ⟨old, hold, hnew⟩ := Option.bind_eq_some_iff.mp hnew
  obtain ⟨assigns, he, rfl, hlen, hvalues, hkeys⟩ := newRecord_eq_some.mp hnew
  have hacc : Table.Accepted s (old.assign assigns) (some id) := by
    apply Table.accepted_of_checks hs hlen hvalues
    intro col hcol j r hr hval
    by_cases hj : j = id
    · rw [hj]
    · exact absurd ⟨col, hcol, hval.symm⟩ (hclear j hj r hr)
  exact ⟨_, (updateRow_of_ok hold he).trans (Table.update_returns hs hold hacc hkeys)⟩

end OneRow

/-! ### All rows -/

section AllRows
variable {s s' : OnDisk (KeyMap lost) (Table (KeyMap lost))} {columns : List (Nat × Expr)}
  {ids ids' : List RecordId}

theorem updateRows_run (hs : s.obj.Agrees) (h : updateRows columns ids s = .ok () s') :
    RewriteRun (newRecord s.obj columns) (SharesKey s.obj.schema) s.obj.records ids s'.obj.records ∧
      Between s s' := by
  induction ids generalizing s with
  | nil =>
    injection h with _ h
    subst h
    exact ⟨.nil _, hs, rfl, rfl, rfl⟩
  | cons id ids ih =>
    obtain ⟨u, t, hrow, hrest⟩ := bind_eq_ok.mp h
    obtain ⟨hstep, hbetween⟩ := updateRow_rewrites hs hrow
    obtain ⟨hrun, hafter⟩ := ih hbetween.agrees hrest
    rw [newRecord_congr hbetween.schema hbetween.name, hbetween.schema] at hrun
    exact ⟨.cons hstep hrun, hafter.agrees, hafter.schema.trans hbetween.schema,
      hafter.name.trans hbetween.name, hafter.order.trans hbetween.order⟩

theorem updateRows_returns (hs : s.obj.Agrees) {cells : RecordId → Option Record}
    (h : RewriteRun (newRecord s.obj columns) (SharesKey s.obj.schema) s.obj.records ids cells) :
    ∃ s', updateRows columns ids s = .ok () s' := by
  induction ids generalizing s with
  | nil => exact ⟨s, rfl⟩
  | cons id ids ih =>
    cases h with
    | cons hstep hrun =>
      obtain ⟨t, hrow⟩ := updateRow_returns hs hstep
      obtain ⟨hstep', hbetween⟩ := updateRow_rewrites hs hrow
      obtain ⟨b, hb, -, hcells⟩ := hstep
      obtain ⟨b', hb', -, hcells'⟩ := hstep'
      rw [hb] at hb'
      injection hb' with hb'
      rw [hcells, hb', ← hcells', ← newRecord_congr hbetween.schema hbetween.name,
        ← hbetween.schema] at hrun
      obtain ⟨s', hrest⟩ := ih hbetween.agrees hrun
      exact ⟨s', (bind_ok hrow).trans hrest⟩

theorem returned_updateRows (hs : s.obj.Agrees) : returned (updateRows columns ids s) = true ↔
    ∃ cells, RewriteRun (newRecord s.obj columns) (SharesKey s.obj.schema) s.obj.records ids cells := by
  rw [returned_iff]
  constructor
  · rintro ⟨u, s', h⟩
    exact ⟨_, (updateRows_run hs h).1⟩
  · rintro ⟨cells, h⟩
    obtain ⟨s', h⟩ := updateRows_returns hs h
    exact ⟨(), s', h⟩

/-- In an order in which a row takes the key of a later one, the UPDATE throws. -/
theorem updateRows_blocked (hs : s.obj.Agrees) (hnd : ids.Nodup)
    (h : TakesLaterKey s.obj columns ids) : returned (updateRows columns ids s) = false := by
  rw [Bool.eq_false_iff]
  intro hret
  have hrun := (exists_run_iff sharesKey_symm hnd).mp ((returned_updateRows hs).mp hret)
  exact h hrun.2

/-- Otherwise the order of the rows decides nothing. -/
theorem updateRows_perm (hs : s.obj.Agrees) (hnd : ids.Nodup) (hperm : ids.Perm ids')
    (h : TakesLaterKey s.obj columns ids ↔ TakesLaterKey s.obj columns ids') :
    returned (updateRows columns ids s) = returned (updateRows columns ids' s) := by
  rw [Bool.eq_iff_iff, returned_updateRows hs, returned_updateRows hs]
  exact exists_run_perm sharesKey_symm hnd hperm (not_iff_not.mp h)

theorem updateRows_same (hs : s.obj.Agrees) (hnd : ids.Nodup) (hperm : ids.Perm ids')
    {s₁ s₂ : OnDisk (KeyMap lost) (Table (KeyMap lost))}
    (h₁ : updateRows columns ids s = .ok () s₁) (h₂ : updateRows columns ids' s = .ok () s₂) :
    s₁.obj.records = s₂.obj.records ∧ s₁.obj.order = s₂.obj.order := by
  obtain ⟨hrun₁, hbetween₁⟩ := updateRows_run hs h₁
  obtain ⟨hrun₂, hbetween₂⟩ := updateRows_run hs h₂
  exact ⟨hrun₁.eq_of_perm hrun₂ hnd hperm, hbetween₁.order.trans hbetween₂.order.symm⟩

end AllRows

/-! ### The access path -/

section AccessPath
variable {s : OnDisk (KeyMap lost) (Table (KeyMap lost))} {regex : Regex}

/-- A condition with one conjunct more. -/
def withConjunct (extra : Expr) : Option Expr → Option Expr
  | none => some extra
  | some w => some (.logical .and w extra)

/-- A conjunct that is true selects nothing else. -/
theorem selected_withConjunct {schema : TableSchema} {r : Record} {extra : Expr}
    (h : truthOf regex schema r extra = some .true) (cond : Option Expr) :
    Selected regex schema (withConjunct extra cond) r ↔ Selected regex schema cond r := by
  cases cond with
  | none =>
    constructor
    · intro _ w hw
      cases hw
    · intro _ w hw
      injection hw with hw
      rw [← hw, h]
  | some w =>
    have hand : truthOf regex schema r (.logical .and w extra) = truthOf regex schema r w := by
      rw [truthOf, h]
      cases truthOf regex schema r w with
      | none => rfl
      | some b => cases b <;> rfl
    constructor
    · intro hsel w' hw
      injection hw with hw
      rw [← hw, ← hand]
      exact hsel _ rfl
    · intro hsel w' hw
      injection hw with hw
      rw [← hw, hand]
      exact hsel w rfl

/-- Conditions that are true of the same rows find the same ones, in some order. -/
theorem matchedRows_perm (hs : s.obj.Sound) {cond cond' : Option Expr}
    (hsame : ∀ id r, s.obj.records id = some r →
      (Selected regex s.obj.schema cond r ↔ Selected regex s.obj.schema cond' r))
    {found found' : List RecordId} {s₁ s₂ : OnDisk (KeyMap lost) (Table (KeyMap lost))}
    (h : matchedRows regex cond s = .ok found s₁) (h' : matchedRows regex cond' s = .ok found' s₂) :
    found.Nodup ∧ found.Perm found' := by
  obtain ⟨-, hnd, hmem⟩ := matchedRows_ok hs h
  obtain ⟨-, hnd', hmem'⟩ := matchedRows_ok hs h'
  refine ⟨hnd, (List.perm_ext_iff_of_nodup hnd hnd').mpr fun id => ?_⟩
  rw [hmem, hmem']
  apply exists_congr
  intro r
  exact and_congr_right fun hr => hsame id r hr

theorem updateAll_run (hs : s.obj.Sound) {assignments : List (Str × Expr)} {cond : Option Expr}
    {found : List RecordId} {s₁ : OnDisk (KeyMap lost) (Table (KeyMap lost))}
    (h : matchedRows regex cond s = .ok found s₁) : updateAll regex assignments cond s =
      match assignmentColumns s.obj assignments with
      | .error e => .error e s
      | .ok columns => (updateRows columns found >>= fun _ => pure found.length) s := by
  have hs₁ := (matchedRows_ok hs h).1
  subst hs₁
  rw [updateAll, getObj_bind_apply]
  cases hcols : assignmentColumns s₁.obj assignments with
  | error e => rfl
  | ok columns => rw [bind_ok (fromExcept_ok_apply columns s₁), bind_ok h]

theorem updateAll_ok (hs : s.obj.Sound) {assignments : List (Str × Expr)} {cond : Option Expr}
    {found : List RecordId} {s₁ t : OnDisk (KeyMap lost) (Table (KeyMap lost))} {n : Nat}
    (h : matchedRows regex cond s = .ok found s₁)
    (hupdate : updateAll regex assignments cond s = .ok n t) :
    n = found.length ∧ ∃ columns, assignmentColumns s.obj assignments = .ok columns ∧
      updateRows columns found s = .ok () t := by
  rw [updateAll_run hs h] at hupdate
  cases hcols : assignmentColumns s.obj assignments with
  | error e =>
    rw [hcols] at hupdate
    cases hupdate
  | ok columns =>
    rw [hcols] at hupdate
    obtain ⟨u, t', hrows, hret⟩ := bind_eq_ok.mp hupdate
    injection hret with hn ht
    exact ⟨hn.symm, columns, rfl, ht ▸ hrows⟩

/-- An UPDATE by two conditions true of the same rows. -/
theorem updateAll_same (hs : s.obj.Sound) (assignments : List (Str × Expr)) {cond cond' : Option Expr}
    (hsame : ∀ id r, s.obj.records id = some r →
      (Selected regex s.obj.schema cond r ↔ Selected regex s.obj.schema cond' r))
    {found found' : List RecordId} {s₁ s₂ : OnDisk (KeyMap lost) (Table (KeyMap lost))}
    (h : matchedRows regex cond s = .ok found s₁) (h' : matchedRows regex cond' s = .ok found' s₂) :
    ((∀ columns, assignmentColumns s.obj assignments = .ok columns →
        (TakesLaterKey s.obj columns found ↔ TakesLaterKey s.obj columns found')) →
      returned (updateAll regex assignments cond s) =
        returned (updateAll regex assignments cond' s)) ∧
    ∀ n n' t t', updateAll regex assignments cond s = .ok n t →
      updateAll regex assignments cond' s = .ok n' t' →
        n = n' ∧ t.obj.records = t'.obj.records ∧ t.obj.order = t'.obj.order := by
  obtain ⟨hnd, hperm⟩ := matchedRows_perm hs hsame h h'
  constructor
  · intro hkeys
    rw [updateAll_run hs h, updateAll_run hs h']
    cases hcols : assignmentColumns s.obj assignments with
    | error e => rfl
    | ok columns =>
      have hrows := updateRows_perm hs.toAgrees hnd hperm (hkeys columns hcols)
      rw [returned_bind_pure, returned_bind_pure, hrows]
  · intro n n' t t' hupdate hupdate'
    obtain ⟨hn, columns, hcols, hrows⟩ := updateAll_ok hs h hupdate
    obtain ⟨hn', columns', hcols', hrows'⟩ := updateAll_ok hs h' hupdate'
    rw [hcols] at hcols'
    injection hcols' with hcols'
    subst hcols'
    exact ⟨hn.trans (hperm.length_eq.trans hn'.symm),
      updateRows_same hs.toAgrees hnd hperm hrows hrows'⟩

end AccessPath

/-- The changes of an UPDATE to its rows, in two orders: both go through or both throw,
unless in just one of them a row takes a key that a row later in it still holds, which
throws; and if both go through they leave the same records. So it is with a WHERE and
the same WHERE with a conjunct true of every row. -/
theorem update_any_order {s : OnDisk (KeyMap lost) (Table (KeyMap lost))} (hs : s.obj.Agrees)
    (columns : List (Nat × Expr)) {ids ids' : List RecordId} (hnd : ids.Nodup)
    (hperm : ids.Perm ids') :
    ((TakesLaterKey s.obj columns ids ↔ TakesLaterKey s.obj columns ids') →
      returned (updateRows columns ids s) = returned (updateRows columns ids' s)) ∧
    (TakesLaterKey s.obj columns ids → returned (updateRows columns ids s) = false) ∧
    (∀ s₁ s₂, updateRows columns ids s = .ok () s₁ → updateRows columns ids' s = .ok () s₂ →
      s₁.obj.records = s₂.obj.records ∧ s₁.obj.order = s₂.obj.order) ∧
    ∀ (regex : Regex) (assignments : List (Str × Expr)) (cond : Option Expr) (extra : Expr)
      (found found' : List RecordId) (s₁ s₂ : OnDisk (KeyMap lost) (Table (KeyMap lost))),
      s.obj.Sound →
      (∀ id r, s.obj.records id = some r → truthOf regex s.obj.schema r extra = some .true) →
      matchedRows regex cond s = .ok found s₁ →
      matchedRows regex (withConjunct extra cond) s = .ok found' s₂ →
        ((∀ columns, assignmentColumns s.obj assignments = .ok columns →
            (TakesLaterKey s.obj columns found ↔ TakesLaterKey s.obj columns found')) →
          returned (updateAll regex assignments cond s) =
            returned (updateAll regex assignments (withConjunct extra cond) s)) ∧
        ∀ n n' t t', updateAll regex assignments cond s = .ok n t →
          updateAll regex assignments (withConjunct extra cond) s = .ok n' t' →
            n = n' ∧ t.obj.records = t'.obj.records ∧ t.obj.order = t'.obj.order := by
  refine ⟨updateRows_perm hs hnd hperm, updateRows_blocked hs hnd,
    fun s₁ s₂ h₁ h₂ => updateRows_same hs hnd hperm h₁ h₂, ?_⟩
  intro regex assignments cond extra found found' s₁ s₂ hsound hextra hfound hfound'
  apply updateAll_same hsound assignments _ hfound hfound'
  intro id r hr
  exact (selected_withConjunct (hextra id r hr) cond).symm

/-! ### A table of two rows -/

section TwoRows

/-- `k int INDEXED, v int, w int`. -/
def keyAndValues : TableSchema :=
  { columns := [{ name := Str.ofString "k", type := .int, indexed := true },
      { name := Str.ofString "v", type := .int }, { name := Str.ofString "w", type := .int }] }

def threeColumnTable : OnDisk (KeyMap .nowhere) (Table (KeyMap .nowhere)) :=
  ⟨Table.emptyTable .nowhere tableName keyAndValues Table.oneColumnPath keyAndValues.indexedColumns, ∅⟩

def firstRow : OnDisk (KeyMap .nowhere) (Table (KeyMap .nowhere)) :=
  { threeColumnTable with obj := threeColumnTable.obj.inserted ⟨[.int 2, .int 1, .int 7]⟩ }

/-- The rows `(2, 1, 7)` and `(1, 0, 8)`, with the ids 1 and 2. -/
def twoRows : OnDisk (KeyMap .nowhere) (Table (KeyMap .nowhere)) :=
  { firstRow with obj := firstRow.obj.inserted ⟨[.int 1, .int 0, .int 8]⟩ }

theorem twoRows_sound : twoRows.obj.Sound := by
  have hfirst : firstRow.obj.Sound :=
    Table.inserted_sound (Table.emptyTable_sound ..)
      (Table.accepted_of_returned (by decide +kernel)) (by decide)
  exact Table.inserted_sound hfirst (Table.accepted_of_returned (by decide +kernel)) (by decide)

theorem twoRows_row {id : RecordId} {r : Record} (h : twoRows.obj.records id = some r) :
    id = 1 ∧ r = ⟨[.int 2, .int 1, .int 7]⟩ ∨ id = 2 ∧ r = ⟨[.int 1, .int 0, .int 8]⟩ := by
  have hid : id ∈ twoRows.obj.order := (twoRows_sound.mem_order id).mpr (by rw [h]; rfl)
  have horder : twoRows.obj.order = [1, 2] := rfl
  rw [horder, List.mem_cons, List.mem_singleton] at hid
  rcases hid with rfl | rfl
  · have hrow : twoRows.obj.records 1 = some ⟨[.int 2, .int 1, .int 7]⟩ := by decide +kernel
    rw [hrow] at h
    injection h with h
    exact .inl ⟨rfl, h.symm⟩
  · have hrow : twoRows.obj.records 2 = some ⟨[.int 1, .int 0, .int 8]⟩ := by decide +kernel
    rw [hrow] at h
    injection h with h
    exact .inr ⟨rfl, h.symm⟩

/-- `k > 0`, which is true of both rows and found through the index of `k`. -/
def keyPositive : Expr :=
  .compare .gt (.columnRef columnName) (.literal (.int 0))

theorem keyPositive_true {id : RecordId} {r : Record} (h : twoRows.obj.records id = some r) :
    truthOf noMatch keyAndValues r keyPositive = some .true := by
  rcases twoRows_row h with ⟨-, rfl⟩ | ⟨-, rfl⟩
  · decide +kernel
  · decide +kernel

/-- `k = w` gives both rows new keys, in either order and by either path. -/
theorem update_any_order_twoRows :
    (∃ s₁ s₂, updateRows [(0, .columnRef (Str.ofString "w"))] [1, 2] twoRows = .ok () s₁ ∧
      updateRows [(0, .columnRef (Str.ofString "w"))] [2, 1] twoRows = .ok () s₂ ∧
        s₁.obj.records = s₂.obj.records) ∧
    ∃ n t t', updateAll noMatch [(columnName, .columnRef (Str.ofString "w"))] none twoRows = .ok n t ∧
      updateAll noMatch [(columnName, .columnRef (Str.ofString "w"))] (some keyPositive) twoRows =
        .ok n t' ∧ t.obj.records = t'.obj.records := by
  have hperm : [1, 2].Perm [2, 1] := List.Perm.swap 2 1 []
  obtain ⟨-, -, hsame, hpaths⟩ := update_any_order twoRows_sound.toAgrees
    [(0, .columnRef (Str.ofString "w"))] (by decide) hperm
  obtain ⟨u, s₁, h₁⟩ := returned_iff.mp (show returned
    (updateRows [(0, .columnRef (Str.ofString "w"))] [1, 2] twoRows) = true by decide +kernel)
  obtain ⟨u', s₂, h₂⟩ := returned_iff.mp (show returned
    (updateRows [(0, .columnRef (Str.ofString "w"))] [2, 1] twoRows) = true by decide +kernel)
  obtain ⟨found, t₁, hfound⟩ := returned_iff.mp
    (show returned (matchedRows noMatch none twoRows) = true by decide +kernel)
  obtain ⟨found', t₂, hfound'⟩ := returned_iff.mp
    (show returned (matchedRows noMatch (some keyPositive) twoRows) = true by decide +kernel)
  obtain ⟨n, t, hall⟩ := returned_iff.mp (show returned
    (updateAll noMatch [(columnName, .columnRef (Str.ofString "w"))] none twoRows) = true by
      decide +kernel)
  obtain ⟨n', t', hall'⟩ := returned_iff.mp (show returned
    (updateAll noMatch [(columnName, .columnRef (Str.ofString "w"))] (some keyPositive) twoRows) =
      true by decide +kernel)
  obtain ⟨hn, hrecords, -⟩ := (hpaths noMatch [(columnName, .columnRef (Str.ofString "w"))] none
    keyPositive found found' t₁ t₂ twoRows_sound (fun _ _ hr => keyPositive_true hr) hfound
    hfound').2 n n' t t' hall hall'
  subst hn
  exact ⟨⟨s₁, s₂, h₁, h₂, (hsame s₁ s₂ h₁ h₂).1⟩, n, t, t', hall, hall', hrecords⟩

/-- The ids in the order of a column's values. -/
def InKeyOrder (t : Table (KeyMap lost)) (col : Nat) (ids : List RecordId) : Prop :=
  ids.Pairwise fun i j => ∀ r r', t.records i = some r → t.records j = some r' →
    r.value col < r'.value col

/-- `k = v` gives the first row the key 1, which the second row has until its turn. In key
order the second row's turn comes first. -/
theorem not_update_any_order : ¬ ∀ (lost : Lost)
    (s : OnDisk (KeyMap lost) (Table (KeyMap lost))), s.obj.Sound →
    ∀ (columns : List (Nat × Expr)) (ids ids' : List RecordId), ids.Sublist s.obj.order →
    ∀ col ∈ s.obj.schema.indexedColumns, InKeyOrder s.obj col ids' → ids.Perm ids' →
      returned (updateRows columns ids s) = returned (updateRows columns ids' s) := by
  intro hall
  have hkeys : InKeyOrder twoRows.obj 0 [2, 1] := by
    refine List.pairwise_pair.mpr fun r r' hr hr' => ?_
    rcases twoRows_row hr with ⟨hid, -⟩ | ⟨-, rfl⟩
    · cases hid
    · rcases twoRows_row hr' with ⟨-, rfl⟩ | ⟨hid, -⟩
      · decide +kernel
      · cases hid
  have hsame := hall .nowhere twoRows twoRows_sound [(0, .columnRef (Str.ofString "v"))] [1, 2] [2, 1]
    (List.Sublist.refl _) 0 (by decide) hkeys (List.Perm.swap 2 1 [])
  have hinsertion : returned (updateRows [(0, .columnRef (Str.ofString "v"))] [1, 2] twoRows) =
      false := by decide +kernel
  have hkey : returned (updateRows [(0, .columnRef (Str.ofString "v"))] [2, 1] twoRows) = true := by
    decide +kernel
  rw [hinsertion, hkey] at hsame
  cases hsame

end TwoRows
end CwDb.Sql
