import CwDb.Sql.Where
import CwDb.Storage.TableInvariant
import CwDb.Foundation.Kleene

/-! The index path and the full scan select the same rows.

`truthOf` is what a condition means on a row: Kleene's logic over comparisons that
are unknown between values of different types or NULL. The evaluation agrees with
it on what is true (`evalWhere_isTrue`). A row the condition is true of satisfies
every clause of its ANDs, so its value in the hinted column is within the bounds of
the hint, whichever clause set them last (`hint_holds`), and the index proposes its
id (`selectCandidates_run`). The bounds are then values of the column's type;
where a bound is not, the index may propose anything and the condition is true of
no row. -/
namespace CwDb.Sql
open Foundation Storage DiskM

/-! ### The meaning of a condition -/

/-- Both integers, or both strings. -/
def sameKind (a b : Value) : Bool := (a.isInt && b.isInt) || (a.isStr && b.isStr)

def CompareOp.holds : CompareOp → Value → Value → Bool
  | .eq, a, b => a = b
  | .notEq, a, b => a ≠ b
  | .lt, a, b => a < b
  | .gt, a, b => b < a
  | .ltEq, a, b => a ≤ b
  | .gtEq, a, b => b ≤ a

def comparison (op : CompareOp) (a b : Value) : Truth :=
  if sameKind a b then .ofBool (op.holds a b) else .unknown

section Meaning
variable (regex : Regex) (schema : TableSchema) (row : Record)

def atomOf : Expr → Option Value
  | .literal v => some v
  | .columnRef column => (schema.indexOf column).map row.value
  | _ => none

/-- The truth value of a condition on a row; none where it has none, such as a
comparison with an unknown column. -/
def truthOf : Expr → Option Truth
  | .compare op lhs rhs => do
    let a ← atomOf schema row lhs
    let b ← atomOf schema row rhs
    return comparison op a b
  | .between value lo hi => do
    let v ← atomOf schema row value
    let lo ← atomOf schema row lo
    let hi ← atomOf schema row hi
    return (comparison .gtEq v lo).and (comparison .ltEq v hi)
  | .like value pattern => do
    let v ← atomOf schema row value
    let pat ← atomOf schema row pattern
    if v.isNull || pat.isNull then return .unknown
    else
      match v, pat with
      | .str v, .str pat =>
        match regex pat v with
        | .ok matched => return .ofBool matched
        | .error _ => none
      | _, _ => none
  | .logical op lhs rhs => do
    let a ← truthOf lhs
    let b ← truthOf rhs
    return match op with
      | .and => a.and b
      | .or => a.or b
  | _ => none

end Meaning

/-! ### Comparisons -/

theorem compare_sameKind {a b : Value} (h : sameKind a b = true) :
    ∃ t, a.HasType t ∧ b.HasType t := by
  cases a <;> cases b <;> simp [sameKind, Value.isInt, Value.isStr] at h
  · exact ⟨.int, ⟨rfl, rfl⟩, ⟨rfl, rfl⟩⟩
  · exact ⟨.str, ⟨rfl, rfl⟩, ⟨rfl, rfl⟩⟩

theorem compare_valid_iff (a b : Value) : (a.compare b).2 = sameKind a b := by
  cases a <;> cases b <;> rfl

theorem toBool_holds {a b : Value} (h : sameKind a b = true) (op : CompareOp) :
    toBoolThreeValued (a.compare b).1 op = op.holds a b := by
  obtain ⟨t, ha, hb⟩ := compare_sameKind h
  cases op <;> simp only [toBoolThreeValued, CompareOp.holds, decide_eq_decide]
  · exact Value.compare_zero_iff ha hb
  · exact not_congr (Value.compare_zero_iff ha hb)
  · exact Value.compare_neg_iff ha hb
  · exact Value.compare_pos_iff ha hb
  · exact Value.compare_nonpos_iff ha hb
  · exact Value.compare_nonneg_iff ha hb

/-! ### Evaluation and meaning -/

section Evaluation
variable {ι : Type} [TableIndex ι] {regex : Regex} {t : Table ι} {row : Record}

theorem evalAtom_eq_ok {e : Expr} {v : Value} :
    evalAtom t row e = .ok v ↔ atomOf t.schema row e = some v := by
  cases e with
  | literal w => simp [evalAtom, atomOf]
  | columnRef column =>
    rw [evalAtom, atomOf, Table.requireColumn]
    cases t.schema.indexOf column with
    | none => exact iff_of_false (fun h => by cases h) (by simp)
    | some i =>
      show Except.ok (row.value i) = .ok v ↔ _
      simp
  | _ => simp [evalAtom, atomOf]

theorem triAnd_value (a b : TriBool) (ha : a.value = true → a.unknown = false)
    (hb : b.value = true → b.unknown = false) :
    ((triAnd a b).value = true ↔ a.value = true ∧ b.value = true) ∧
      ((triAnd a b).value = true → (triAnd a b).unknown = false) := by
  obtain ⟨av, au⟩ := a
  obtain ⟨bv, bu⟩ := b
  cases av <;> cases au <;> cases bv <;> cases bu <;> simp [triAnd] at ha hb ⊢

theorem triOr_value (a b : TriBool) :
    ((triOr a b).value = true ↔ a.value = true ∨ b.value = true) ∧
      ((triOr a b).value = true → (triOr a b).unknown = false) := by
  obtain ⟨av, au⟩ := a
  obtain ⟨bv, bu⟩ := b
  cases av <;> cases au <;> cases bv <;> cases bu <;> simp [triOr]

/-- What the evaluation makes of a condition is true exactly when its meaning is. -/
theorem evalWhere_isTrue {w : Expr} {b : TriBool} (h : evalWhere regex t row w = .ok b) :
    ∃ k, truthOf regex t.schema row w = some k ∧ (b.value = true ↔ k = .true) ∧
      (b.value = true → b.unknown = false) := by
  induction w generalizing b with
  | columnRef c => cases h
  | literal v => cases h
  | compare op lhs rhs =>
    rw [evalWhere] at h
    obtain ⟨x, hx, h⟩ := except_bind_eq_ok.mp h
    obtain ⟨y, hy, h⟩ := except_bind_eq_ok.mp h
    refine ⟨comparison op x y, ?_, ?_⟩
    · simp [truthOf, evalAtom_eq_ok.mp hx, evalAtom_eq_ok.mp hy]
    · replace h : (if !(x.compare y).2 then (⟨false, true⟩ : TriBool)
          else ⟨toBoolThreeValued (x.compare y).1 op, false⟩) = b := Except.ok.inj h
      rw [compare_valid_iff] at h
      rw [← h, comparison]
      by_cases hk : sameKind x y = true
      · simp [hk, toBool_holds hk]
      · simp [hk]
  | between value lo hi =>
    rw [evalWhere] at h
    obtain ⟨v, hv, h⟩ := except_bind_eq_ok.mp h
    obtain ⟨l, hl, h⟩ := except_bind_eq_ok.mp h
    obtain ⟨u, hu, h⟩ := except_bind_eq_ok.mp h
    refine ⟨(comparison .gtEq v l).and (comparison .ltEq v u), ?_, ?_⟩
    · simp [truthOf, evalAtom_eq_ok.mp hv, evalAtom_eq_ok.mp hl, evalAtom_eq_ok.mp hu]
    · replace h : (if !(v.compare l).2 || !(v.compare u).2 then (⟨false, true⟩ : TriBool)
          else ⟨(v.compare l).1 ≥ 0 && (v.compare u).1 ≤ 0, false⟩) = b := Except.ok.inj h
      rw [compare_valid_iff, compare_valid_iff] at h
      rw [← h, comparison, comparison]
      by_cases hkl : sameKind v l = true
      · by_cases hku : sameKind v u = true
        · have hge := toBool_holds hkl .gtEq
          have hle := toBool_holds hku .ltEq
          simp only [toBoolThreeValued] at hge hle
          simp [hkl, hku, ← hge, ← hle]
        · simp [hkl, hku]
      · simp [hkl]
  | like value pattern =>
    rw [evalWhere] at h
    obtain ⟨v, hv, h⟩ := except_bind_eq_ok.mp h
    obtain ⟨p, hp, h⟩ := except_bind_eq_ok.mp h
    simp only [truthOf, evalAtom_eq_ok.mp hv, evalAtom_eq_ok.mp hp, Option.bind_eq_bind,
      Option.bind_some]
    split at h
    · rename_i hnull
      injection h with h
      subst h
      exact ⟨.unknown, by rw [if_pos hnull]; rfl, by simp, by simp⟩
    · rename_i hnull
      rw [if_neg hnull]
      cases v with
      | str v =>
        cases p with
        | str p =>
          simp only at h ⊢
          cases hr : regex p v with
          | ok matched =>
            rw [hr] at h
            injection h with h
            subst h
            exact ⟨.ofBool matched, rfl, by simp, by simp⟩
          | error what =>
            rw [hr] at h
            cases h
        | null => cases h
        | int i => cases h
      | null => cases h
      | int i => cases h
  | logical op lhs rhs ihl ihr =>
    rw [evalWhere] at h
    obtain ⟨a, ha, h⟩ := except_bind_eq_ok.mp h
    obtain ⟨c, hc, h⟩ := except_bind_eq_ok.mp h
    obtain ⟨ka, hka, hta, hua⟩ := ihl ha
    obtain ⟨kc, hkc, htc, huc⟩ := ihr hc
    injection h with h
    subst h
    cases op with
    | and =>
      refine ⟨ka.and kc, by simp [truthOf, hka, hkc], ?_, (triAnd_value a c hua huc).2⟩
      rw [(triAnd_value a c hua huc).1, Truth.and_eq_true, hta, htc]
    | or =>
      refine ⟨ka.or kc, by simp [truthOf, hka, hkc], ?_, (triOr_value a c).2⟩
      rw [(triOr_value a c).1, Truth.or_eq_true, hta, htc]

/-- A row is selected when the meaning of the condition is true on it. -/
theorem selected_eq {w : Expr} {b : Bool} (h : selected regex t row (some w) = .ok b) :
    b = true ↔ truthOf regex t.schema row w = some .true := by
  obtain ⟨tb, htb, h⟩ := except_bind_eq_ok.mp h
  injection h with h
  obtain ⟨k, hk, htrue, hknown⟩ := evalWhere_isTrue htb
  rw [hk, Option.some.injEq, ← htrue, ← h]
  cases hv : tb.value with
  | false => simp
  | true => simp [hknown hv]

end Evaluation

/-! ### Hints -/

theorem sameKind_comm (a b : Value) : sameKind a b = sameKind b a := by
  cases a <;> cases b <;> rfl

theorem holds_swap (op : CompareOp) (a b : Value) : op.holds a b = op.swap.holds b a := by
  cases op with
  | eq => exact decide_eq_decide.mpr eq_comm
  | notEq => exact decide_eq_decide.mpr ne_comm
  | _ => rfl

theorem comparison_swap (op : CompareOp) (a b : Value) :
    comparison op a b = comparison op.swap b a := by
  rw [comparison, comparison, sameKind_comm, holds_swap]

/-- A value within the bounds of a hint. -/
structure IndexHint.Holds (hint : IndexHint) (v : Value) : Prop where
  eq : hint.eq = true → comparison .eq v hint.eqValue = .true
  lo : hint.hasLo = true →
    comparison (if hint.loInclusive then .gtEq else .gt) v hint.lo = .true
  hi : hint.hasHi = true →
    comparison (if hint.hiInclusive then .ltEq else .lt) v hint.hi = .true

theorem restrict_holds {hint : IndexHint} {v w : Value} {op : CompareOp} (h : hint.Holds v)
    (hw : comparison op v w = .true) : (hint.restrict op w).Holds v := by
  cases op with
  | eq => exact ⟨fun _ => hw, h.lo, h.hi⟩
  | notEq => exact h
  | lt => exact ⟨h.eq, h.lo, fun _ => hw⟩
  | gt => exact ⟨h.eq, fun _ => hw, h.hi⟩
  | ltEq => exact ⟨h.eq, h.lo, fun _ => hw⟩
  | gtEq => exact ⟨h.eq, fun _ => hw, h.hi⟩

section Hints
variable {regex : Regex} {schema : TableSchema} {row : Record}

/-- A condition that is true has true clauses only. -/
theorem clauses_true {w : Expr} (h : truthOf regex schema row w = some .true) :
    ∀ c ∈ clausesOf w, truthOf regex schema row c = some .true := by
  induction w with
  | logical op lhs rhs ihl ihr =>
    cases op with
    | or =>
      intro c hc
      rw [clausesOf, List.mem_singleton] at hc
      exact hc ▸ h
      nofun
    | and =>
      simp only [truthOf, Option.bind_eq_bind] at h
      obtain ⟨a, ha, h⟩ := Option.bind_eq_some_iff.mp h
      obtain ⟨b, hb, h⟩ := Option.bind_eq_some_iff.mp h
      obtain ⟨rfl, rfl⟩ := Truth.and_eq_true.mp (Option.some.inj h)
      intro c hc
      rcases List.mem_append.mp hc with hc | hc
      · exact ihl ha c hc
      · exact ihr hb c hc
  | _ =>
    intro c hc
    rw [clausesOf, List.mem_singleton] at hc
    · exact hc ▸ h
    · nofun

theorem atomOf_column {e : Expr} {col : ColumnDef} {i : Nat}
    (hi : schema.indexOf col.name = some i) (he : isColumnNamed e col.name = true) :
    atomOf schema row e = some (row.value i) := by
  cases e with
  | columnRef c =>
    have hc : c = col.name := by simpa [isColumnNamed] using he
    rw [atomOf, hc, hi, Option.map_some]
  | _ => simp [isColumnNamed] at he

theorem atomOf_literal {e : Expr} {v : Value} (he : asLiteral e = some v) :
    atomOf schema row e = some v := by
  cases e with
  | literal w => exact he
  | _ => simp [asLiteral] at he

theorem columnComparison_true {col : ColumnDef} {i : Nat} {op op' : CompareOp} {lhs rhs : Expr}
    {v : Value} (hi : schema.indexOf col.name = some i)
    (hc : columnComparison col op lhs rhs = some (op', v))
    (h : truthOf regex schema row (.compare op lhs rhs) = some .true) :
    comparison op' (row.value i) v = .true := by
  simp only [truthOf, Option.bind_eq_bind] at h
  obtain ⟨a, ha, h⟩ := Option.bind_eq_some_iff.mp h
  obtain ⟨b, hb, h⟩ := Option.bind_eq_some_iff.mp h
  replace h : comparison op a b = .true := Option.some.inj h
  have hfound : (isColumnNamed lhs col.name = true ∧ asLiteral rhs = some v ∧ op' = op) ∨
      (isColumnNamed rhs col.name = true ∧ asLiteral lhs = some v ∧ op' = op.swap) := by
    unfold columnComparison at hc
    cases hl : isColumnNamed lhs col.name <;> cases hrl : asLiteral rhs <;>
      cases hr : isColumnNamed rhs col.name <;> cases hll : asLiteral lhs <;>
      simp [hl, hrl, hr, hll] at hc ⊢ <;> simp_all
  rcases hfound with ⟨hcol, hlit, rfl⟩ | ⟨hcol, hlit, rfl⟩
  · rw [atomOf_column hi hcol] at ha
    rw [atomOf_literal hlit] at hb
    exact Option.some.inj ha ▸ Option.some.inj hb ▸ h
  · rw [atomOf_column hi hcol] at hb
    rw [atomOf_literal hlit] at ha
    rw [comparison_swap] at h
    exact Option.some.inj ha ▸ Option.some.inj hb ▸ h

/-- A clause that is true keeps the row within the bounds of the hint it adds to. -/
theorem hintClause_holds {col : ColumnDef} {i : Nat} {hint : IndexHint} {c : Expr}
    (hi : schema.indexOf col.name = some i) (hhint : hint.Holds (row.value i))
    (h : truthOf regex schema row c = some .true) :
    (hintClause col hint c).Holds (row.value i) := by
  cases c with
  | compare op lhs rhs =>
    rw [hintClause]
    cases hc : columnComparison col op lhs rhs with
    | none => exact hhint
    | some p => exact restrict_holds hhint (columnComparison_true hi hc h)
  | between value lo hi' =>
    rw [hintClause]
    split
    · exact hhint
    · rename_i hcol
      cases hlo : asLiteral lo with
      | none => exact hhint
      | some l =>
        cases hhi : asLiteral hi' with
        | none => exact hhint
        | some u =>
          rw [truthOf, atomOf_column hi (by simpa using hcol), atomOf_literal hlo,
            atomOf_literal hhi] at h
          obtain ⟨hge, hle⟩ := Truth.and_eq_true.mp (Option.some.inj h)
          exact ⟨hhint.eq, fun _ => hge, fun _ => hle⟩
  | _ => exact hhint

theorem foldl_hint {col : ColumnDef} {i : Nat} (hi : schema.indexOf col.name = some i)
    (clauses : List Expr) (hint : IndexHint) (hhint : hint.Holds (row.value i))
    (h : ∀ c ∈ clauses, truthOf regex schema row c = some .true) :
    (clauses.foldl (hintClause col) hint).Holds (row.value i) := by
  induction clauses generalizing hint with
  | nil => exact hhint
  | cons c cs ih =>
    exact ih _ (hintClause_holds hi hhint (h c (List.mem_cons_self ..)))
      fun x hx => h x (List.mem_cons_of_mem c hx)

theorem hintClause_columnIdx (col : ColumnDef) (hint : IndexHint) (c : Expr) :
    (hintClause col hint c).columnIdx = hint.columnIdx := by
  cases c with
  | compare op lhs rhs =>
    rw [hintClause]
    cases columnComparison col op lhs rhs with
    | none => rfl
    | some p => obtain ⟨op', v⟩ := p; cases op' <;> rfl
  | between value lo hi =>
    rw [hintClause]
    split
    · rfl
    · cases asLiteral lo <;> cases asLiteral hi <;> rfl
  | _ => rfl

theorem foldl_columnIdx (col : ColumnDef) (clauses : List Expr) (hint : IndexHint) :
    (clauses.foldl (hintClause col) hint).columnIdx = hint.columnIdx := by
  induction clauses generalizing hint with
  | nil => rfl
  | cons c cs ih => rw [List.foldl_cons, ih, hintClause_columnIdx]

end Hints

section Derived
variable {ι : Type} {regex : Regex} {t : Table ι} {row : Record}

theorem hintColumns_holds {clauses : List Expr}
    (h : ∀ c ∈ clauses, truthOf regex t.schema row c = some .true) (cols : List ColumnDef) :
    (hintColumns t clauses cols).has = true →
      (hintColumns t clauses cols).Holds (row.value (hintColumns t clauses cols).columnIdx) := by
  induction cols with
  | nil => intro hhas; cases hhas
  | cons col cols ih =>
    rw [hintColumns]
    cases hi : t.schema.indexOf col.name with
    | none => exact ih
    | some i =>
      simp only
      split
      · exact ih
      · split
        · intro _
          have hhint := foldl_hint hi clauses { columnIdx := i }
            ⟨by nofun, by nofun, by nofun⟩ h
          have hidx := foldl_columnIdx col clauses { columnIdx := i }
          simp only [hidx]
          exact ⟨hhint.eq, hhint.lo, hhint.hi⟩
        · exact ih

/-- A row the condition is true of is within the bounds of its hint. -/
theorem hint_holds {w : Expr} (h : truthOf regex t.schema row w = some .true)
    (hhas : (deriveIndexHint (some w) t).has = true) :
    (deriveIndexHint (some w) t).Holds (row.value (deriveIndexHint (some w) t).columnIdx) :=
  hintColumns_holds (clauses_true h) _ hhas

end Derived

/-! ### Candidates -/

section Candidates
variable {lost : Lost} {s : OnDisk (KeyMap lost) (Table (KeyMap lost))} {regex : Regex}

/-- The loop of a range, over the pairs a cursor has yet to visit. -/
theorem collectLoop_run (hi : Option Value) (inclusive : Bool) (m : KeyMap lost) (fuel : Nat)
    (c : KeyMap.Cursor) (hfuel : c.length < fuel) :
    Table.collectLoop (ι := KeyMap lost) hi inclusive fuel c m =
      .ok ((c.takeWhile fun e => !Table.pastUpper hi inclusive e.1).map Prod.snd) m := by
  induction fuel generalizing c with
  | zero => exact absurd hfuel (Nat.not_lt_zero _)
  | succ fuel ih =>
    cases c with
    | nil => rfl
    | cons e es =>
      obtain ⟨key, id⟩ := e
      have hrest := ih es (Nat.lt_of_succ_lt_succ hfuel)
      show (if Table.pastUpper hi inclusive key then (pure [] : EStateM Exn (KeyMap lost) _)
        else (do
          let it ← (TableIndex.next ((key, id) :: es : KeyMap.Cursor) :
            EStateM Exn (KeyMap lost) (TableIndex.Cursor (KeyMap lost)))
          let rest ← Table.collectLoop hi inclusive fuel it
          return id :: rest)) m = _
      by_cases hpast : Table.pastUpper hi inclusive key = true
      · rw [if_pos hpast]
        simp [hpast]
      · rw [if_neg hpast]
        refine (bind_ok (rfl : (TableIndex.next ((key, id) :: es : KeyMap.Cursor) :
          EStateM Exn (KeyMap lost) (TableIndex.Cursor (KeyMap lost))) m = .ok es m)).trans ?_
        refine (bind_ok hrest).trans ?_
        simp [hpast]

/-- Where a range starts: at a suffix of the map, the right one if the bound compares. -/
theorem collectFrom_run (lo : Option Value) (inclusive : Bool) (m : KeyMap lost) :
    ∃ c : KeyMap.Cursor, Table.collectFrom (ι := KeyMap lost) lo inclusive m = .ok c m ∧
      c.Sublist m.entries ∧
      (∀ v, lo = some v → m.comparable v = true →
        c = if inclusive then fromKey v m.entries else afterKey v m.entries) ∧
      (lo = none → c = m.entries) := by
  cases lo with
  | none => exact ⟨m.entries, rfl, List.Sublist.refl _, by simp, fun _ => rfl⟩
  | some v =>
    cases inclusive with
    | true =>
      by_cases hcomp : m.comparable v = true
      · refine ⟨fromKey v m.entries, ?_, List.filter_sublist, ?_, by simp⟩
        · show KeyMap.lowerBound v m = _
          rw [KeyMap.lowerBound, if_pos hcomp]
        · rintro w ⟨rfl⟩ -
          rfl
      · refine ⟨_, ?_, List.drop_sublist (lost.lower m.entries v) _, ?_, by simp⟩
        · show KeyMap.lowerBound v m = _
          rw [KeyMap.lowerBound, if_neg hcomp]
        · rintro w ⟨rfl⟩ h
          exact absurd h hcomp
    | false =>
      by_cases hcomp : m.comparable v = true
      · refine ⟨afterKey v m.entries, ?_, List.filter_sublist, ?_, by simp⟩
        · show KeyMap.upperBound v m = _
          rw [KeyMap.upperBound, if_pos hcomp]
        · rintro w ⟨rfl⟩ -
          rfl
      · refine ⟨_, ?_, List.drop_sublist (lost.upper m.entries v) _, ?_, by simp⟩
        · show KeyMap.upperBound v m = _
          rw [KeyMap.upperBound, if_neg hcomp]
        · rintro w ⟨rfl⟩ h
          exact absurd h hcomp

/-- A range over the index of a column: the ids of its cursor's pairs up to the bound. -/
theorem indexCollectRange_run {col : Nat} {m : KeyMap lost} (hm : s.obj.indexAt col = some m)
    (lo : Option Value) (loInclusive : Bool) (hi : Option Value) (hiInclusive : Bool)
    {c : KeyMap.Cursor}
    (hc : Table.collectFrom (ι := KeyMap lost) lo loInclusive m = .ok c m)
    (hsub : c.Sublist m.entries) :
    Table.indexCollectRange col lo loInclusive hi hiInclusive s =
      .ok ((c.takeWhile fun e => !Table.pastUpper hi hiInclusive e.1).map Prod.snd) s := by
  rw [Table.indexCollectRange, getObj_bind_apply, hm]
  refine Table.onIndex_still (Table.indexAt_eq_some hm) ?_
  rw [bind_ok hc, get_bind_apply]
  exact collectLoop_run hi hiInclusive m _ c (Nat.lt_succ_of_le hsub.length_le)

/-- The ids of an index are distinct, so those of any part of it are. -/
theorem ids_nodup {col : Nat} {m : KeyMap lost}
    (hagree : s.obj.IndexAgrees col m) {l : List (Value × RecordId)} (hsub : l.Sublist m.entries) :
    (l.map Prod.snd).Nodup := by
  refine List.Nodup.map_on ?_ (m.sorted.nodup.sublist hsub)
  intro x hx y hy hid
  obtain ⟨r, hr, hv⟩ := (hagree x.1 x.2).mp (hsub.subset hx)
  obtain ⟨r', hr', hv'⟩ := (hagree y.1 y.2).mp (hsub.subset hy)
  rw [hid, hr'] at hr
  injection hr with hr
  exact Prod.ext (by rw [← hv, ← hv', hr]) hid

/-- A pair of a sorted list is met before the loop stops, if the loop stops at no
smaller key. -/
theorem mem_takeWhile {l : List (Value × RecordId)} (hl : SortedKeys l) {p : Value → Bool}
    {e : Value × RecordId} (he : e ∈ l) (hp : ∀ x ∈ l, x.1 ≤ e.1 → p x.1 = true) :
    e ∈ l.takeWhile fun x => p x.1 := by
  induction l with
  | nil => cases he
  | cons x xs ih =>
    obtain ⟨hx, hxs⟩ := List.pairwise_cons.mp hl
    have hxe : x.1 ≤ e.1 := by
      rcases List.mem_cons.mp he with rfl | he
      · exact le_refl _
      · exact (hx e he).le
    rw [List.takeWhile_cons, if_pos (hp x (List.mem_cons_self ..) hxe)]
    rcases List.mem_cons.mp he with rfl | he
    · exact List.mem_cons_self ..
    · exact List.mem_cons_of_mem _ (ih hxs he fun y hy => hp y (List.mem_cons_of_mem x hy))

/-- A bound that a value of the column compares with is of the column's type. -/
theorem comparison_true {op : CompareOp} {a b : Value} (h : comparison op a b = .true) :
    sameKind a b = true ∧ op.holds a b = true := by
  rw [comparison] at h
  split at h
  · exact ⟨‹_›, Truth.ofBool_eq_true.mp h⟩
  · cases h

theorem hasType_of_sameKind {t : DataType} {a b : Value} (ha : a.HasType t)
    (h : sameKind a b = true) : b.HasType t := by
  obtain ⟨t', ha', hb⟩ := compare_sameKind h
  cases t with
  | int =>
    obtain ⟨i, rfl⟩ := Value.hasType_int ha
    cases b <;> simp [sameKind, Value.isInt, Value.isStr] at h
    exact ⟨rfl, rfl⟩
  | str =>
    obtain ⟨x, rfl⟩ := Value.hasType_str ha
    cases b <;> simp [sameKind, Value.isInt, Value.isStr] at h
    exact ⟨rfl, rfl⟩
  | other byte => exact absurd ha Value.not_hasType_other

/-- A value within the upper bound is not past it. -/
theorem not_pastUpper {t : DataType} {hint : IndexHint} {v x : Value} (hv : v.HasType t)
    (hx : x.HasType t) (hxv : x ≤ v) (h : hint.Holds v) :
    Table.pastUpper (if hint.hasHi then some hint.hi else none) hint.hiInclusive x = false := by
  cases hhi : hint.hasHi with
  | false => rfl
  | true =>
    have hb := comparison_true (h.hi hhi)
    have hbt := hasType_of_sameKind hv hb.1
    simp only [if_true, Table.pastUpper, Value.compare_valid hx hbt, Bool.not_true, Bool.false_or]
    cases hinc : hint.hiInclusive with
    | true =>
      have hle : v ≤ hint.hi := by simpa [hinc, CompareOp.holds] using hb.2
      have := (Value.compare_nonpos_iff hx hbt).mpr (hxv.trans hle)
      simpa using this
    | false =>
      have hlt : v < hint.hi := by simpa [hinc, CompareOp.holds] using hb.2
      have := (Value.compare_neg_iff hx hbt).mpr (lt_of_le_of_lt hxv hlt)
      simpa using this

/-- What the candidates of a condition are, at least: records, each once, and all that
the condition is true of. -/
def Candidates (regex : Regex) (t : Table (KeyMap lost)) (w : Expr) (ids : List RecordId) : Prop :=
  ids.Nodup ∧ (∀ id ∈ ids, (t.records id).isSome = true) ∧
    ∀ id r, t.records id = some r → truthOf regex t.schema r w = some .true → id ∈ ids

/-- A hinted equality: one lookup. -/
theorem candidates_eq (hs : s.obj.Sound) {w : Expr} {hint : IndexHint}
    (hhint : ∀ r, truthOf regex s.obj.schema r w = some .true →
      hint.Holds (r.value hint.columnIdx))
    (hcol : hint.columnIdx ∈ s.obj.schema.indexedColumns) (heq : hint.eq = true) :
    Candidates regex s.obj w
      ((s.obj.indexAt hint.columnIdx).bind fun m => m.findId hint.eqValue).toList := by
  obtain ⟨m, hm, hagree⟩ := hs.agree _ hcol
  obtain ⟨c, hc, hidx⟩ := TableSchema.mem_indexedColumns.mp hcol
  rw [Table.indexAt_of_agrees hs.toAgrees hcol, hm, Option.bind_some]
  refine ⟨?_, ?_, ?_⟩
  · cases m.findId hint.eqValue <;> simp
  · intro id hid
    obtain ⟨e, he, rfl⟩ := KeyMap.findId_mem (Option.mem_toList.mp hid)
    exact hs.mem_records hcol hm e he
  · intro id r hr htrue
    have hv := hs.typed _ c hc hidx id r hr
    have hsame := comparison_true ((hhint r htrue).eq heq)
    have hval : r.value hint.columnIdx = hint.eqValue := by
      simpa [CompareOp.holds] using hsame.2
    have hmem : (hint.eqValue, id) ∈ m.entries := (hagree _ _).mpr ⟨r, hr, hval⟩
    rw [KeyMap.findId_comparable (hs.comparable hc hidx hagree (hval ▸ hv)),
      (lookupKey_eq_some m.sorted).mpr hmem]
    simp

/-- Hinted bounds: a range of the index. -/
theorem candidates_range (hs : s.obj.Sound) {w : Expr} {hint : IndexHint}
    (hhint : ∀ r, truthOf regex s.obj.schema r w = some .true →
      hint.Holds (r.value hint.columnIdx))
    (hcol : hint.columnIdx ∈ s.obj.schema.indexedColumns) :
    ∃ ids, Table.indexCollectRange hint.columnIdx (if hint.hasLo then some hint.lo else none)
        hint.loInclusive (if hint.hasHi then some hint.hi else none) hint.hiInclusive s =
          .ok ids s ∧ Candidates regex s.obj w ids := by
  obtain ⟨m, hm, hagree⟩ := hs.agree _ hcol
  obtain ⟨c, hc, hidx⟩ := TableSchema.mem_indexedColumns.mp hcol
  have hat : s.obj.indexAt hint.columnIdx = some m := by
    rw [Table.indexAt_of_agrees hs.toAgrees hcol, hm]
  obtain ⟨cur, hcur, hsub, hlo, hnolo⟩ := collectFrom_run
    (if hint.hasLo then some hint.lo else none) hint.loInclusive m
  refine ⟨_, indexCollectRange_run hat _ _ _ _ hcur hsub, ?_, ?_, ?_⟩
  · exact ids_nodup hagree ((List.takeWhile_sublist _).trans hsub)
  · intro id hid
    obtain ⟨e, he, rfl⟩ := List.mem_map.mp hid
    exact hs.mem_records hcol hm e (hsub.subset ((List.takeWhile_sublist _).subset he))
  · intro id r hr htrue
    have hholds := hhint r htrue
    have hv := hs.typed _ c hc hidx id r hr
    have hmem : (r.value hint.columnIdx, id) ∈ m.entries := (hagree _ _).mpr ⟨r, hr, rfl⟩
    -- the row's pair is in the suffix the range starts at
    have hin : (r.value hint.columnIdx, id) ∈ cur := by
      cases hhas : hint.hasLo with
      | false => rw [hnolo (by simp [hhas])]; exact hmem
      | true =>
        have hb := comparison_true (hholds.lo hhas)
        have hbt := hasType_of_sameKind hv hb.1
        rw [hlo hint.lo (by simp [hhas]) (hs.comparable hc hidx hagree hbt)]
        cases hinc : hint.loInclusive with
        | true => simpa [hinc, CompareOp.holds, hmem] using hb.2
        | false => simpa [hinc, CompareOp.holds, hmem] using hb.2
    refine List.mem_map.mpr ⟨(r.value hint.columnIdx, id), ?_, rfl⟩
    refine mem_takeWhile (p := fun x => !Table.pastUpper
      (if hint.hasHi then some hint.hi else none) hint.hiInclusive x)
      (List.Pairwise.sublist hsub m.sorted) hin ?_
    intro x hx hxv
    obtain ⟨r', hr', hval⟩ := (hagree x.1 x.2).mp (hsub.subset hx)
    have hxt := hs.typed _ c hc hidx x.2 r' hr'
    rw [hval] at hxt
    simp only [not_pastUpper hv hxt hxv hholds, Bool.not_false]

/-- The candidates of a condition, whichever way they are found. -/
theorem selectCandidates_run (regex : Regex) (hs : s.obj.Sound) (w : Expr) :
    ∃ ids, selectCandidates (some w) s = .ok ids s ∧ Candidates regex s.obj w ids := by
  have hscan : Candidates regex s.obj w s.obj.order :=
    ⟨hs.order_nodup, fun id hid => (hs.mem_order id).mp hid,
      fun id r hr _ => (hs.mem_order id).mpr (by rw [hr]; rfl)⟩
  rw [selectCandidates, getObj_bind_apply]
  by_cases hhas : (deriveIndexHint (some w) s.obj).has = true
  · rw [if_neg (by simp [hhas])]
    have hhint : ∀ r, truthOf regex s.obj.schema r w = some .true →
        (deriveIndexHint (some w) s.obj).Holds
          (r.value (deriveIndexHint (some w) s.obj).columnIdx) :=
      fun r htrue => hint_holds htrue hhas
    by_cases hidx : s.obj.columnIsIndexed (deriveIndexHint (some w) s.obj).columnIdx = true
    · have hcol := (Table.columnIsIndexed_iff _ _).mp hidx
      rw [if_neg (by simp [hidx])]
      by_cases heq : (deriveIndexHint (some w) s.obj).eq = true
      · rw [if_pos heq]
        exact ⟨_, bind_ok (Table.indexFind_run s _ _), candidates_eq hs hhint hcol heq⟩
      · rw [if_neg heq]
        exact candidates_range hs hhint hcol
    · rw [if_pos (by simpa using hidx)]
      exact ⟨_, rfl, hscan⟩
  · rw [if_pos (by simpa using hhas)]
    exact ⟨_, rfl, hscan⟩

/-- The condition of a statement is true of a row; an absent one is true of all. -/
def Selected (regex : Regex) (schema : TableSchema) (cond : Option Expr) (r : Record) : Prop :=
  ∀ w, cond = some w → truthOf regex schema r w = some .true

theorem selected_iff {t : Table (KeyMap lost)} {r : Record} {cond : Option Expr} {b : Bool}
    (h : selected regex t r cond = .ok b) : b = true ↔ Selected regex t.schema cond r := by
  cases cond with
  | none =>
    injection h with h
    subst h
    exact iff_of_true rfl (fun w hw => by cases hw)
  | some w =>
    rw [selected_eq h]
    constructor
    · rintro htrue w' ⟨rfl⟩
      exact htrue
    · exact fun hsel => hsel w rfl

/-- The filter over the candidates, when no row makes it throw. -/
theorem matchLoop_ok {t : Table (KeyMap lost)} {cond : Option Expr} {ids matched : List RecordId}
    (h : matchLoop regex t cond ids = .ok matched) :
    matched.Sublist ids ∧ ∀ id, id ∈ matched ↔
      id ∈ ids ∧ ∃ r, t.records id = some r ∧ Selected regex t.schema cond r := by
  induction ids generalizing matched with
  | nil =>
    injection h with h
    subst h
    exact ⟨List.Sublist.refl _, by simp⟩
  | cons i ids ih =>
    rw [matchLoop] at h
    cases hr : t.records i with
    | none => rw [hr] at h; cases h
    | some r =>
      rw [hr] at h
      obtain ⟨keep, hkeep, h⟩ := except_bind_eq_ok.mp h
      obtain ⟨rest, hrest, h⟩ := except_bind_eq_ok.mp h
      injection h with h
      obtain ⟨hsub, hmem⟩ := ih hrest
      have hi : ∀ x, x = i → ((∃ r, t.records x = some r ∧ Selected regex t.schema cond r) ↔
          keep = true) := by
        rintro x rfl
        rw [hr, selected_iff hkeep]
        simp
      cases hk : keep with
      | true =>
        rw [hk, if_pos rfl] at h
        subst h
        refine ⟨hsub.cons_cons i, fun id => ?_⟩
        rw [List.mem_cons, List.mem_cons, hmem]
        by_cases hid : id = i
        · simp [hid, (hi i rfl).mpr hk]
        · simp [hid]
      | false =>
        rw [hk, if_neg Bool.false_ne_true] at h
        subst h
        refine ⟨hsub.cons i, fun id => ?_⟩
        rw [List.mem_cons, hmem]
        by_cases hid : id = i
        · have hnot := (not_congr (hi i rfl)).mpr (by simp [hk])
          simp [hid, hnot]
        · simp [hid]

theorem matchLoop_total {t : Table (KeyMap lost)} {cond : Option Expr} {ids : List RecordId}
    (h : ∀ id ∈ ids, ∃ r b, t.records id = some r ∧ selected regex t r cond = .ok b) :
    ∃ matched, matchLoop regex t cond ids = .ok matched := by
  induction ids with
  | nil => exact ⟨[], rfl⟩
  | cons i ids ih =>
    obtain ⟨r, b, hr, hb⟩ := h i (List.mem_cons_self ..)
    obtain ⟨rest, hrest⟩ := ih fun id hid => h id (List.mem_cons_of_mem i hid)
    refine ⟨if b then i :: rest else rest, ?_⟩
    rw [matchLoop, hr]
    exact except_bind_eq_ok.mpr ⟨b, hb, except_bind_eq_ok.mpr ⟨rest, hrest, rfl⟩⟩

/-- The candidates of a statement: each once, with every row its condition is true of. -/
theorem selectCandidates_complete (regex : Regex) (hs : s.obj.Sound) (cond : Option Expr) :
    ∃ cands, selectCandidates cond s = .ok cands s ∧ cands.Nodup ∧
      ∀ id r, s.obj.records id = some r → Selected regex s.obj.schema cond r → id ∈ cands := by
  cases cond with
  | none =>
    refine ⟨s.obj.order, ?_, hs.order_nodup, ?_⟩
    · rw [selectCandidates, getObj_bind_apply]
      rfl
    · exact fun id r hr _ => (hs.mem_order id).mpr (by rw [hr]; rfl)
  | some w =>
    obtain ⟨cands, hcands, hnd, -, hcomplete⟩ := selectCandidates_run regex hs w
    exact ⟨cands, hcands, hnd, fun id r hr hsel => hcomplete id r hr (hsel w rfl)⟩

/-- The rows a statement finds: each once, exactly those its condition is true of. -/
theorem matchedRows_ok (hs : s.obj.Sound) {cond : Option Expr} {ids : List RecordId}
    {s' : OnDisk (KeyMap lost) (Table (KeyMap lost))} (h : matchedRows regex cond s = .ok ids s') :
    s' = s ∧ ids.Nodup ∧ ∀ id, id ∈ ids ↔
      ∃ r, s.obj.records id = some r ∧ Selected regex s.obj.schema cond r := by
  obtain ⟨cands, hcands, hnd, hcomplete⟩ := selectCandidates_complete regex hs cond
  rw [matchedRows, bind_ok hcands, getObj_bind_apply] at h
  cases hm : matchLoop regex s.obj cond cands with
  | error e => rw [hm] at h; cases h
  | ok matched =>
    rw [hm] at h
    injection h with hids hs'
    subst hids hs'
    obtain ⟨hsub, hmem⟩ := matchLoop_ok hm
    refine ⟨rfl, hnd.sublist hsub, fun id => ?_⟩
    rw [hmem]
    constructor
    · exact fun h => h.2
    · rintro ⟨r, hr, hsel⟩
      exact ⟨hcomplete id r hr hsel, r, hr, hsel⟩

theorem matchedRows_error (hs : s.obj.Sound) {cond : Option Expr} {e : Exn}
    {s' : OnDisk (KeyMap lost) (Table (KeyMap lost))}
    (h : matchedRows regex cond s = .error e s') : s' = s := by
  obtain ⟨cands, hcands, -, -⟩ := selectCandidates_complete regex hs cond
  rw [matchedRows, bind_ok hcands, getObj_bind_apply] at h
  cases hm : matchLoop regex s.obj cond cands with
  | error e' =>
    rw [hm] at h
    injection h with _ h
    exact h.symm
  | ok matched => rw [hm] at h; cases h

/-- Filtering the candidates of a condition that throws on no row gives, each once,
exactly the rows the condition is true of. -/
theorem matchedRows_exact (hs : s.obj.Sound) {w : Expr}
    (heval : ∀ id r, s.obj.records id = some r → ∃ b, evalWhere regex s.obj r w = .ok b) :
    ∃ ids, matchedRows regex (some w) s = .ok ids s ∧ ids.Nodup ∧ ∀ id, id ∈ ids ↔
      ∃ r, s.obj.records id = some r ∧ truthOf regex s.obj.schema r w = some .true := by
  obtain ⟨cands, hcands, -, hrecords, -⟩ := selectCandidates_run regex hs w
  obtain ⟨ids, hids⟩ : ∃ ids, matchLoop regex s.obj (some w) cands = .ok ids :=
    matchLoop_total fun id hid => by
      obtain ⟨r, hr⟩ := Option.isSome_iff_exists.mp (hrecords id hid)
      obtain ⟨b, hb⟩ := heval id r hr
      exact ⟨r, b.value && !b.unknown, hr, except_bind_eq_ok.mpr ⟨b, hb, rfl⟩⟩
  have hrun : matchedRows regex (some w) s = .ok ids s := by
    rw [matchedRows, bind_ok hcands, getObj_bind_apply, hids, fromExcept_ok_apply]
  obtain ⟨-, hnd, hmem⟩ := matchedRows_ok hs hrun
  refine ⟨ids, hrun, hnd, fun id => ?_⟩
  rw [hmem]
  constructor
  · rintro ⟨r, hr, hsel⟩
    exact ⟨r, hr, hsel w rfl⟩
  · rintro ⟨r, hr, htrue⟩
    exact ⟨r, hr, fun w' hw => by injection hw with hw; exact hw ▸ htrue⟩

theorem matchedRows_oneRow : ∃ ids, matchedRows (fun _ _ => .ok false)
      (some (.compare .gt (.columnRef (Str.ofString "k")) (.literal (.int 4))))
      Table.oneRowTable = .ok ids Table.oneRowTable ∧ ids.Nodup ∧ ∀ id, id ∈ ids ↔
        ∃ r, Table.oneRowTable.obj.records id = some r ∧
          truthOf (fun _ _ => .ok false) (Table.oneColumn .int) r
            (.compare .gt (.columnRef (Str.ofString "k")) (.literal (.int 4))) = some .true := by
  refine matchedRows_exact Table.oneRowTable_sound fun id r hr => ?_
  have hcol : Table.oneRowTable.obj.requireColumn (Str.ofString "k") = .ok 0 := by decide +kernel
  have hatom : evalAtom Table.oneRowTable.obj r (.columnRef (Str.ofString "k")) =
      .ok (r.value 0) := by
    rw [evalAtom, hcol]
    rfl
  rw [evalWhere, hatom]
  exact ⟨_, rfl⟩

end Candidates
end CwDb.Sql
