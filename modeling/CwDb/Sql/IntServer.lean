import CwDb.Storage.Index.IntMap
import CwDb.Sql.StatementMirror

/-! The server over B+-trees of integers.

The B+-tree over its pages tracks the ideal index, for integer keys and up to 18246 of
them (`intTracking`). So every run of row operations on a table, and of statements on the
server, has over B+-trees the answers and throws it has over ideal indexes, as long as no
index gets larger (`intTable_runs`, `intServer_runs`). -/
namespace CwDb.Storage
open Foundation

/-- A prefix is known by what holds of its elements. -/
theorem takeWhile_congr {α : Type} {p q : α → Bool} {l : List α} (h : ∀ a ∈ l, p a = q a) :
    l.takeWhile p = l.takeWhile q := by
  induction l with
  | nil => rfl
  | cons a l ih =>
    rw [List.takeWhile_cons, List.takeWhile_cons, h a List.mem_cons_self,
      ih fun b hb => h b (List.mem_cons_of_mem a hb)]

namespace KeyMap
open DiskBspIndex BPlusTree

variable {lost : Lost} {m : KeyMap lost} {ty : DataType} {key : Value}

/-- The keys of the map are of one type. -/
def Holds (ty : DataType) (m : KeyMap lost) : Prop := ∀ e ∈ m.entries, e.1.HasType ty

theorem Holds.comparable (h : m.Holds ty) (hkey : key.HasType ty) : m.comparable key = true :=
  List.all_eq_true.mpr fun e he => Value.compare_valid (h e he) hkey

theorem findPair_typed (h : m.Holds ty) (hkey : key.HasType ty) :
    findPair key m = .ok ((lookupKey key m.entries).map fun id => (key, id)) m := by
  have hcomp := h.comparable hkey
  have hlookup := lookupKey_eq_head m.sorted (k := key)
  show (KeyMap.find key >>= fun it => pure (List.head? it)) m = _
  cases hes : fromKey key m.entries with
  | nil =>
    have hfind : KeyMap.find key m = .ok [] m := by
      rw [KeyMap.find, if_pos hcomp, hes]
    rw [bind_ok hfind, pure_apply, hlookup, hes]
    rfl
  | cons e es =>
    have hfind : KeyMap.find key m = .ok (if e.1 = key then e :: es else []) m := by
      rw [KeyMap.find, if_pos hcomp, hes]
    rw [bind_ok hfind, pure_apply, hlookup, hes]
    by_cases he : e.1 = key
    · simp [Option.filter, he]
      rw [← he]
    · simp [Option.filter, he]

theorem collectIds_typed (h : m.Holds ty) {lo hi : Option Value} (loInclusive hiInclusive : Bool)
    (hlo : ∀ b ∈ lo, b.HasType ty) (hhi : ∀ b ∈ hi, b.HasType ty) :
    collectIds lo loInclusive hi hiInclusive m =
      .ok ((m.entries.filter fun e => Within lo loInclusive hi hiInclusive e.1).map Prod.snd) m := by
  obtain ⟨c, hc, hsub, htyped, hnone⟩ := Sql.collectFrom_run lo loInclusive m
  have hfrom : c = m.entries.filter fun e => Within lo loInclusive none false e.1 := by
    cases lo with
    | none =>
      rw [hnone rfl]
      exact (List.filter_eq_self.mpr fun e _ => by simp [Within]).symm
    | some b =>
      rw [htyped b rfl (h.comparable (hlo b rfl))]
      cases loInclusive with
      | true => exact List.filter_congr fun e _ => decide_eq_decide.mpr (by simp [Within])
      | false => exact List.filter_congr fun e _ => decide_eq_decide.mpr (by simp [Within])
  have hasc : Ascending Prod.fst (m.entries.filter fun e => Within lo loInclusive none false e.1) :=
    m.sorted.filter _
  have htake : (c.takeWhile fun e => !Table.pastUpper hi hiInclusive e.1) =
      m.entries.filter fun e => Within lo loInclusive hi hiInclusive e.1 := by
    rw [hfrom]
    have hcongr : ∀ e ∈ m.entries.filter fun e => Within lo loInclusive none false e.1,
        (!Table.pastUpper hi hiInclusive e.1) = decide (Within none true hi hiInclusive e.1) :=
      fun e he => pastUpper_typed hiInclusive hhi (h e (List.mem_filter.mp he).1)
    rw [takeWhile_congr hcongr, hasc.takeWhile_eq_filter, List.filter_filter]
    · refine List.filter_congr fun e _ => ?_
      rw [← Bool.decide_and]
      exact decide_eq_decide.mpr (by simp [Within, and_comm])
    · intro a b hab hb
      have hb' := of_decide_eq_true hb
      refine decide_eq_true ⟨fun u hu => (by cases hu), fun u hu => ?_⟩
      have hle := hb'.2 u hu
      cases hiInclusive with
      | true => exact hab.le.trans hle
      | false => exact hab.trans hle
  rw [← htake]
  exact (bind_ok hc).trans (Sql.collectLoop_run hi hiInclusive m _ c
    (Nat.lt_succ_of_le hsub.length_le))

end KeyMap

namespace DiskBspIndex
open BPlusTree KeyMap

variable {lost : Lost}

/-- The keys of an index of integers are integers. -/
theorem Maps.holds {m : KeyMap lost} {s : DiskBspIndex NodeMap} (hm : Maps m.entries s) :
    m.Holds .int := by
  obtain ⟨H, t, hs, -, hpairs, -⟩ := hm
  intro e he
  rw [← hpairs] at he
  obtain ⟨x, hx, rfl⟩ := mem_pairs.mp he
  exact (hs.toLaid.encodes x hx).hasType

theorem Maps.flush {m : List (Value × RecordId)} {s : DiskBspIndex NodeMap} (hm : Maps m s) :
    ∃ s', DiskBspIndex.flush s = .ok () s' ∧ Maps m s' := by
  obtain ⟨H, t, hs, hsorted, hpairs, hroom⟩ := hm
  refine ⟨{ s with pager := s.pager.put 0 none }, rfl, H, t, ?_, hsorted, hpairs, hroom⟩
  exact { hs with toStored := ⟨hs.toLaid.superblock, hs.size⟩ }

theorem Maps.insert_agree {m : KeyMap lost} {s : DiskBspIndex NodeMap} (hm : Maps m.entries s)
    {key : Value} (hkey : key.HasType .int) {id : RecordId} (hid : id < 2 ^ 64)
    (hroom : m.entries.length < 18246) : Agree (fun d (n : KeyMap lost) => Maps n.entries d)
      (DiskBspIndex.insert key (UInt64.ofNat id) s) (KeyMap.insert key id m) := by
  have hindexable : Indexable key := ⟨hkey.1, int_size hkey⟩
  rw [KeyMap.insert, dif_pos hindexable]
  cases hthere : (lookupKey key m.entries).isSome with
  | true =>
    rw [if_pos rfl, hm.insert_there hkey hthere]
    exact .error _ hm
  | false =>
    rw [if_neg Bool.false_ne_true]
    obtain ⟨s', hrun, hm'⟩ := hm.insert_new (UInt64.ofNat id) hkey hroom hthere
    rw [UInt64.toNat_ofNat_of_lt' hid] at hm'
    rw [hrun]
    exact .ok () hm'

theorem Maps.erase_agree {m : KeyMap lost} {s : DiskBspIndex NodeMap} (hm : Maps m.entries s)
    {key : Value} (hkey : key.HasType .int) : Agree (fun d (n : KeyMap lost) => Maps n.entries d)
      (DiskBspIndex.erase key s) (KeyMap.erase key m) := by
  obtain ⟨s', hrun, hm'⟩ := hm.erase hkey
  rw [hrun, KeyMap.erase]
  cases hthere : (lookupKey key m.entries).isSome with
  | true =>
    rw [if_pos rfl]
    exact .ok true hm'
  | false =>
    have hshort : ¬ (encodedValueSize key > kMaxIndexKeyBytes && lost.eraseThrows m.entries key) =
        true := by
      simp [Nat.not_lt.mpr (int_size hkey)]
    rw [if_neg Bool.false_ne_true, if_neg hshort]
    have hnone : lookupKey key m.entries = none := by simpa using hthere
    have hsame : eraseKey key m.entries = m.entries :=
      List.filter_eq_self.mpr fun e he => by simpa using lookupKey_eq_none.mp hnone e he
    rw [hsame] at hm'
    exact .ok false hm'

theorem Maps.findPair {m : List (Value × RecordId)} {s : DiskBspIndex NodeMap} (hm : Maps m s)
    {key : Value} (hkey : key.HasType .int) :
    Storage.findPair key s = .ok ((lookupKey key m).map fun id => (key, id)) s := by
  obtain ⟨H, t, ⟨hs, hsorted, rfl, hlength, hroom⟩, -⟩ := hm.sought hkey
  obtain ⟨it, s', hfind, hfound⟩ := bind_eq_ok.mp
    (find_pairs (hs.stands hsorted) (hs.narrow (by omega)) hkey)
  rw [pure_apply] at hfound
  injection hfound with hfound hstate
  injection hfound with hfound
  exact (bind_ok hfind).trans (by rw [pure_apply, hfound, hstate])

theorem Maps.collectIds {m : List (Value × RecordId)} {s : DiskBspIndex NodeMap} (hm : Maps m s)
    {lo hi : Option Value} (loInclusive hiInclusive : Bool) (hlo : ∀ b ∈ lo, b.HasType .int)
    (hhi : ∀ b ∈ hi, b.HasType .int) : Storage.collectIds lo loInclusive hi hiInclusive s =
      .ok ((m.filter fun e => Within lo loInclusive hi hiInclusive e.1).map Prod.snd) s := by
  obtain ⟨H, t, hs, hsorted, rfl, hroom⟩ := hm
  have hlength : t.entries.length = (pairs t).length := (List.length_map _).symm
  obtain ⟨ids, s', hcollect, hids⟩ := bind_eq_ok.mp (collect_pairs (hs.stands hsorted)
    (hs.narrow (by omega)) loInclusive hiInclusive hlo hhi)
  rw [pure_apply] at hids
  injection hids with hids hstate
  injection hids with hids
  rw [hcollect, hids, hstate]

/-- The B+-tree over its pages, as long as the keys are integers. -/
def intTracking (lost : Lost) : Tracking (DiskBspIndex NodeMap) lost where
  Rel s m := Maps m.entries s
  FileRel s m := Maps m.entries s
  Key key := key.HasType .int
  room := 18246
  short _ hkey := int_size hkey
  isOpen _ _ _ := rfl
  insert _ _ _ _ hm hkey hid hroom := hm.insert_agree hkey hid hroom
  erase _ _ _ hm hkey := hm.erase_agree hkey
  find s m key hm hkey := by
    rw [findPair_typed hm.holds hkey, hm.findPair hkey]
    exact .ok _ hm
  collect s m lo loInclusive hi hiInclusive hm hlo hhi := by
    rw [collectIds_typed hm.holds loInclusive hiInclusive hlo hhi,
      hm.collectIds loInclusive hiInclusive hlo hhi]
    exact .ok _ hm
  flush _ _ hm := hm.flush
  createEmpty := by
    obtain ⟨s, hrun, hm⟩ := createEmpty_maps
    refine ⟨s, ?_, hm⟩
    show made createEmpty (blank NodeMap.empty) = .ok s
    rw [made, hrun]
  openFile _ s _ hm := ⟨s, rfl, hm⟩
  file _ _ hm := hm

end DiskBspIndex

/-! ### Runs on a table -/

namespace Table

/-- A run of row operations on a new table has over B+-trees of integers the answers and throws
it has over ideal indexes. Every index finds the record that has a value then, and no
other. -/
theorem intTable_runs (lost : Lost) (name : Str) {schema : TableSchema} (datPath : Path)
    (hkeyed : Keyed (Value.HasType .int) schema) {ops : List RowOp}
    (hroom : (idealRows lost 18246).AllowedRun ops (boundTable (KeyMap lost) name schema datPath)) :
    ∃ s, runCalls (fun op => attempt op.run) ops (boundTable (DiskBspIndex NodeMap) name schema
        datPath) = .ok ((idealRows lost 18246).answers ops
          (boundTable (KeyMap lost) name schema datPath)) s ∧
      ∀ (col : Nat) (c : ColumnDef) (key : Value), s.obj.schema.columns[col]? = some c →
        c.indexed = true → key.HasType c.type → ∃ found s', indexFind col key s = .ok found s' ∧
          ∀ id, found = some id ↔ ∃ r, s.obj.records id = some r ∧ r.value col = key := by
  obtain ⟨s, hrun, h, hkept⟩ := (simulates_idealRows (T := DiskBspIndex.intTracking lost)).run ops _ _
    (boundTable_mirrors (DiskBspIndex.intTracking lost) name datPath hkeyed) hroom
  exact ⟨s, hrun, fun col c key hc hidx hkey => indexFind_exact h hkept hc hidx hkey⟩

/-- The ideal table after some operations of a run. -/
def oneColumnState (n : Nat) : OnDisk (KeyMap .nowhere) (Table (KeyMap .nowhere)) :=
  (idealRows .nowhere 18246).afterRun (oneColumnRun.take n)
    (boundTable (KeyMap .nowhere) (Str.ofString "t") (oneColumn .int) oneColumnPath)

theorem intTable_runs_oneColumn :
    ∃ s, runCalls (fun op => attempt op.run) oneColumnRun
        (boundTable (DiskBspIndex NodeMap) (Str.ofString "t") (oneColumn .int) oneColumnPath) =
          .ok ((idealRows .nowhere 18246).answers oneColumnRun
            (boundTable (KeyMap .nowhere) (Str.ofString "t") (oneColumn .int) oneColumnPath)) s ∧
      ∀ (col : Nat) (c : ColumnDef) (key : Value), s.obj.schema.columns[col]? = some c →
        c.indexed = true → key.HasType c.type → ∃ found s', indexFind col key s = .ok found s' ∧
          ∀ id, found = some id ↔ ∃ r, s.obj.records id = some r ∧ r.value col = key := by
  have hroom : ∀ n < 2, (oneColumnState n).obj.order.length < 18246 ∧
      (oneColumnState n).obj.nextId < 2 ^ 64 := by
    decide +kernel
  refine intTable_runs .nowhere (Str.ofString "t") oneColumnPath ?_
    (Spec.allowedRun_of fun n op hop => ?_)
  · intro col c hc _ x hx
    cases col with
    | zero =>
      cases hc
      exact hx
    | succ col => cases hc
  · show op.Roomy 18246 (oneColumnState n).obj
    match n, hop with
    | 0, hop | 1, hop =>
      cases hop
      exact hroom _ (by decide)
    | 2, hop | 3, hop =>
      cases hop
      exact trivial
    | n + 4, hop => cases hop

end Table
end CwDb.Storage

namespace CwDb.Sql
open Foundation Storage DiskM

/-! ### Runs of the server -/

/-- A run of statements on a new server has over B+-trees of integers the answers and throws
it has over ideal indexes, and leaves the same rows, in the same files. -/
theorem intServer_runs (lost : Lost) (regex : Regex) {stmts : List Statement}
    (hfits : (idealServer lost (Value.HasType .int) 18246 regex).AllowedRun stmts ⟨{}, ∅⟩) :
    ∃ s : OnDisk (DiskBspIndex NodeMap) (Dbms (DiskBspIndex NodeMap)),
      runCalls (fun stmt => attempt (execute regex stmt)) stmts ⟨{}, ∅⟩ =
        .ok ((idealServer lost (Value.HasType .int) 18246 regex).answers stmts ⟨{}, ∅⟩) s ∧
      Dbms.TwinsOn (DiskBspIndex.intTracking lost) s
        ((idealServer lost (Value.HasType .int) 18246 regex).afterRun stmts ⟨{}, ∅⟩) := by
  have htidy : Dbms.Tidy (⟨{}, ∅⟩ : OnDisk (KeyMap lost) (Dbms (KeyMap lost))) :=
    ⟨fun _ _ h => (by cases h), fun _ h => (by cases h)⟩
  obtain ⟨s, hrun, h, -⟩ := (simulates_idealServer regex (DiskBspIndex.intTracking lost)).run stmts
    ⟨{}, ∅⟩ ⟨{}, ∅⟩ ⟨⟨⟨rfl, .empty⟩, .empty⟩, htidy⟩ hfits
  exact ⟨s, hrun, h⟩

theorem holds_of_all {α : Type} {o : Option α} {p : α → Bool} (h : o.all p = true) :
    ∀ a, o = some a → p a = true := by
  intro a ha
  rwa [ha] at h

/-- A database, a table of one indexed column, two rows, and a search. -/
def twoRowRun : List Statement :=
  [.createDatabase dbName, .use dbName,
    .createTable { table := { table := tableName }
                   columns := [{ name := columnName, indexed := true }] },
    .insert { table := { table := tableName }, columns := [], rows := [[.int 5], [.int 3]] },
    .select { table := { table := tableName }, items := [{ isStar := true }]
              where? := some (.compare .gtEq (.columnRef columnName) (.literal (.int 4))) }]

/-- The ideal server after some statements of the run. -/
def twoRowState (n : Nat) : OnDisk (KeyMap .nowhere) (Dbms (KeyMap .nowhere)) :=
  (idealServer .nowhere (Value.HasType .int) 18246 noMatch).afterRun (twoRowRun.take n) ⟨{}, ∅⟩

theorem intServer_runs_twoRows :
    ∃ s : OnDisk (DiskBspIndex NodeMap) (Dbms (DiskBspIndex NodeMap)),
      runCalls (fun stmt => attempt (execute noMatch stmt)) twoRowRun ⟨{}, ∅⟩ =
        .ok ((idealServer .nowhere (Value.HasType .int) 18246 noMatch).answers twoRowRun ⟨{}, ∅⟩) s ∧
      Dbms.TwinsOn (DiskBspIndex.intTracking .nowhere) s (twoRowState 5) := by
  have hroom : (tableOf (twoRowState 3).obj { table := tableName }).all (fun u =>
      decide (u.order.length + 2 ≤ 18246 ∧ u.nextId + 2 ≤ 2 ^ 64)) = true := by
    decide +kernel
  have hasks : (tableOf (twoRowState 4).obj { table := tableName }).all (fun u =>
      let hint := deriveIndexHint
        (some (.compare .gtEq (.columnRef columnName) (.literal (.int 4)))) u
      !hint.eq && decide (hint.lo.HasType .int) && !hint.hasHi) = true := by
    decide +kernel
  refine intServer_runs .nowhere noMatch (Spec.allowedRun_of fun n stmt hstmt => ?_)
  show stmt.Fits (Value.HasType .int) 18246 (twoRowState n)
  match n, hstmt with
  | 0, hstmt | 1, hstmt =>
    cases hstmt
    exact trivial
  | 2, hstmt =>
    cases hstmt
    refine ⟨?_, by decide, by decide⟩
    intro col c hc _ x hx
    cases col with
    | zero =>
      cases hc
      exact hx
    | succ col => cases hc
  | 3, hstmt =>
    cases hstmt
    intro u hu
    obtain ⟨hrows, hids⟩ := of_decide_eq_true (holds_of_all hroom u hu)
    exact ⟨fun _ => hrows, hids⟩
  | 4, hstmt =>
    cases hstmt
    intro u hu _
    have hhint := holds_of_all hasks u hu
    simp only [Bool.and_eq_true, Bool.not_eq_true', decide_eq_true_eq] at hhint
    rw [if_neg (by rw [hhint.1.1]; exact Bool.false_ne_true)]
    exact ⟨fun _ => hhint.1.2, fun hhi => by rw [hhint.2] at hhi; cases hhi⟩
  | n + 5, hstmt => cases hstmt

end CwDb.Sql
