import CwDb.Core.Value
import Mathlib.Data.Finset.Card
import Mathlib.Algebra.Group.Nat.Defs

/-! String interning.

A record stores a string as a 32-bit id; the pool holds one copy of every string it
was given and two tables, from strings to ids and from ids to strings. Id 0 stands
for no string, so the table by id starts with an empty string that nobody reads.

`Holds S pool` says that the tables are inverse to each other and that `S` is the
set of strings in them; interning adds a string to `S` and keeps what every id
meant (`intern_spec`). Over a run, then, ids and contents stand for each other one
to one (`runCalls_bijective`), which is why the values of `Core/Value.lean` can keep
the contents: on cells of one pool equality and comparison are those of the values
(`Cell.equals_contents`, `Cell.compare_contents`). -/
namespace CwDb

structure StringPool where
  /-- `unordered_map` from strings to ids. -/
  byValue : List (Str × UInt32)
  byId : List Str

namespace StringPool

abbrev Id := UInt32

def kInvalid : Id := 0

/-- The constructor: id 0 is taken by the sentinel. -/
def new : StringPool := ⟨[], [[]]⟩

/-- `unordered_map::emplace`: a key that is there keeps its id. -/
def emplace (m : List (Str × Id)) (s : Str) (id : Id) : List (Str × Id) :=
  match m.lookup s with
  | some _ => m
  | none => (s, id) :: m

/-- The id of a string, the next one if the pool does not have it. -/
def intern (s : Str) (pool : StringPool) : Id × StringPool :=
  match pool.byValue.lookup s with
  | some id => (id, pool)
  | none =>
    let id := UInt32.ofNat pool.byId.length
    let byId := pool.byId ++ [s]
    -- the key is read back from the vector, which by now owns the string
    (id, { byId, byValue := emplace pool.byValue (byId.getLastD []) id })

/-- The overload that takes the caller's string away does the same to the pool. -/
def internMove (s : Str) (pool : StringPool) : Id × StringPool := intern s pool

def get (id : Id) (pool : StringPool) : Except Exn Str :=
  if id = kInvalid ∨ id.toNat ≥ pool.byId.length then
    .error (.outOfRange "StringPool: invalid id")
  else .ok (pool.byId.getD id.toNat [])

def size (pool : StringPool) : Nat := pool.byId.length - 1

/-! ### The two tables -/

theorem get_ok_iff {pool : StringPool} {id : Id} {s : Str} :
    pool.get id = .ok s ↔ id ≠ kInvalid ∧ pool.byId[id.toNat]? = some s := by
  unfold get
  by_cases h : id = kInvalid ∨ id.toNat ≥ pool.byId.length
  · rw [if_pos h]
    refine iff_of_false nofun fun hs => ?_
    obtain ⟨hlt, -⟩ := List.getElem?_eq_some_iff.mp hs.2
    exact h.elim hs.1 (not_le.mpr hlt)
  · rw [if_neg h]
    rw [not_or, not_le] at h
    rw [Except.ok.injEq, List.getD_eq_getElem?_getD, List.getElem?_eq_getElem h.2]
    simp [h.1]

/-- The tables are inverse to each other, and the strings in them are those of `S`. -/
structure Holds (S : Finset Str) (pool : StringPool) : Prop where
  inverse : ∀ s id, pool.byValue.lookup s = some id ↔ pool.get id = .ok s
  mem : ∀ s, (pool.byValue.lookup s).isSome = true ↔ s ∈ S
  length : pool.byId.length = S.card + 1

theorem holds_new : Holds ∅ new where
  inverse s id := by
    rw [get_ok_iff]
    refine iff_of_false nofun fun h => h.1 ?_
    obtain ⟨hlt, -⟩ := List.getElem?_eq_some_iff.mp h.2
    exact UInt32.toNat_inj.mp (Nat.lt_one_iff.mp hlt)
  mem s := iff_of_false nofun (Finset.notMem_empty s)
  length := rfl

variable {S : Finset Str} {pool : StringPool} {s t : Str}

theorem Holds.size (h : Holds S pool) : pool.size = S.card := by
  rw [StringPool.size, h.length, Nat.add_sub_cancel]

/-- A string has one id. -/
theorem Holds.get_inj (h : Holds S pool) {i j : Id} (hi : pool.get i = .ok s)
    (hj : pool.get j = .ok t) : i = j ↔ s = t := by
  constructor
  · intro hij
    rw [hij, hj] at hi
    exact (Except.ok.inj hi).symm
  · intro hst
    rw [← hst] at hj
    exact Option.some.inj (((h.inverse s i).mpr hi).symm.trans ((h.inverse s j).mpr hj))

/-- A new string goes to the end of the table by id. -/
theorem intern_absent (h : pool.byValue.lookup s = none) :
    intern s pool = (UInt32.ofNat pool.byId.length,
      ⟨(s, UInt32.ofNat pool.byId.length) :: pool.byValue, pool.byId ++ [s]⟩) := by
  simp [intern, emplace, h]

/-- Interning makes the id mean the string and leaves what every other id means. -/
theorem intern_spec (h : Holds S pool) (hcard : (insert s S).card < 2 ^ 32) :
    Holds (insert s S) (intern s pool).2 ∧ (intern s pool).2.get (intern s pool).1 = .ok s ∧
      ∀ i u, pool.get i = .ok u → (intern s pool).2.get i = .ok u := by
  cases hs : pool.byValue.lookup s with
  | some id =>
    have hmem : s ∈ S := (h.mem s).mp (by rw [hs]; rfl)
    have hintern : intern s pool = (id, pool) := by simp [intern, hs]
    rw [hintern, Finset.insert_eq_of_mem hmem]
    exact ⟨h, (h.inverse s id).mp hs, fun _ _ hi => hi⟩
  | none =>
    have hmem : s ∉ S := fun hin => by
      have hsome := (h.mem s).mpr hin
      rw [hs] at hsome
      exact absurd hsome nofun
    rw [Finset.card_insert_of_notMem hmem, ← h.length] at hcard
    rw [intern_absent hs]
    have hid : (UInt32.ofNat pool.byId.length).toNat = pool.byId.length :=
      UInt32.toNat_ofNat_of_lt' hcard
    have hnew : ∀ i u, (⟨(s, UInt32.ofNat pool.byId.length) :: pool.byValue, pool.byId ++ [s]⟩ :
        StringPool).get i = .ok u ↔
        pool.get i = .ok u ∨ (i = UInt32.ofNat pool.byId.length ∧ u = s) := by
      intro i u
      rw [get_ok_iff, get_ok_iff]
      rcases lt_trichotomy i.toNat pool.byId.length with hlt | heq | hgt
      · have hne : i ≠ UInt32.ofNat pool.byId.length := fun heq => by
          rw [heq, hid] at hlt
          exact lt_irrefl _ hlt
        rw [List.getElem?_append_left hlt]
        simp [hne]
      · have hi : i = UInt32.ofNat pool.byId.length := UInt32.toNat_inj.mp (heq.trans hid.symm)
        have hvalid : i ≠ kInvalid := fun hzero => by
          rw [hzero, h.length] at heq
          exact absurd heq nofun
        rw [List.getElem?_append_right heq.ge, heq, List.getElem?_eq_none le_rfl, Nat.sub_self]
        simp [hvalid, ← hi, eq_comm]
      · have hne : i ≠ UInt32.ofNat pool.byId.length := fun heq => by
          rw [heq, hid] at hgt
          exact lt_irrefl _ hgt
        rw [List.getElem?_eq_none (by simpa using Nat.succ_le_of_lt hgt), List.getElem?_eq_none hgt.le]
        simp [hne]
    refine ⟨⟨fun u i => ?_, fun u => ?_, ?_⟩, (hnew _ _).mpr (.inr ⟨rfl, rfl⟩),
      fun i u hi => (hnew i u).mpr (.inl hi)⟩
    · rw [hnew, ← h.inverse, List.lookup_cons]
      by_cases hus : u = s
      · rw [hus, hs]
        simp [eq_comm]
      · simp [hus, beq_eq_false_iff_ne.mpr hus]
    · rw [List.lookup_cons, Finset.mem_insert, ← h.mem]
      by_cases hus : u = s
      · simp [hus]
      · simp [hus, beq_eq_false_iff_ne.mpr hus]
    · rw [List.length_append, h.length, Finset.card_insert_of_notMem hmem]
      rfl

/-! ### Runs -/

inductive Call where
  | copy (s : Str)
  | move (s : Str)

def Call.str : Call → Str
  | .copy s | .move s => s

def Call.run : Call → StringPool → Id × StringPool
  | .copy s => intern s
  | .move s => internMove s

/-- The ids the calls return, and the pool after them. -/
def runCalls : List Call → StringPool → List Id × StringPool
  | [], pool => ([], pool)
  | c :: cs, pool =>
    let (id, pool) := c.run pool
    let (ids, pool) := runCalls cs pool
    (id :: ids, pool)

theorem Call.run_eq (c : Call) (pool : StringPool) : c.run pool = intern c.str pool := by
  cases c <;> rfl

theorem runCalls_append (cs ds : List Call) (pool : StringPool) :
    runCalls (cs ++ ds) pool =
      ((runCalls cs pool).1 ++ (runCalls ds (runCalls cs pool).2).1,
        (runCalls ds (runCalls cs pool).2).2) := by
  induction cs generalizing pool with
  | nil => rfl
  | cons c cs ih => simp only [List.cons_append, runCalls, ih]

/-- The strings of the calls. -/
def strings (cs : List Call) : Finset Str := (cs.map Call.str).toFinset

/-- After a run the ids it returned mean the strings it was given, and every id from
before it means what it meant. -/
theorem runCalls_spec (cs : List Call) {S : Finset Str} {pool : StringPool} (h : Holds S pool)
    (hcard : (strings cs ∪ S).card < 2 ^ 32) :
    Holds (strings cs ∪ S) (runCalls cs pool).2 ∧
      List.Forall₂ (fun c id => (runCalls cs pool).2.get id = .ok c.str) cs (runCalls cs pool).1 ∧
      ∀ i u, pool.get i = .ok u → (runCalls cs pool).2.get i = .ok u := by
  induction cs generalizing S pool with
  | nil =>
    rw [strings, List.map_nil, List.toFinset_nil, Finset.empty_union]
    exact ⟨h, .nil, fun _ _ hi => hi⟩
  | cons c cs ih =>
    have hstrings : strings (c :: cs) ∪ S = strings cs ∪ insert c.str S := by
      simp [strings, List.toFinset_cons, Finset.union_insert, Finset.insert_union]
    rw [hstrings] at hcard ⊢
    have hstep : (insert c.str S).card < 2 ^ 32 :=
      (Finset.card_le_card Finset.subset_union_right).trans_lt hcard
    obtain ⟨hheld, hid, hkept⟩ := intern_spec h hstep
    obtain ⟨hrun, hids, hlater⟩ := ih hheld hcard
    rw [runCalls, Call.run_eq]
    exact ⟨hrun, .cons (hlater _ _ hid) hids, fun i u hi => hlater i u (hkept i u hi)⟩

end StringPool

/-! ### Values as the program stores them -/

/-- A value with its string interned. -/
inductive Cell where
  | null
  | int (i : Int64)
  | str (id : StringPool.Id)
  deriving DecidableEq

namespace Cell

/-- `of_str`, on a string the caller keeps or gives away. -/
def ofStr (c : StringPool.Call) (pool : StringPool) : Cell × StringPool :=
  let (id, pool) := c.run pool
  (.str id, pool)

/-- `operator==`: ids only, the contents are not looked at. -/
def equals : Cell → Cell → Bool
  | .null, .null => true
  | .int a, .int b => a == b
  | .str a, .str b => a == b
  | _, _ => false

/-- The source declares it `noexcept`: an error here would end the program. -/
def compare (pool : StringPool) : Cell → Cell → Except Exn (Int × Bool)
  | .null, _ => .ok (0, false)
  | _, .null => .ok (0, false)
  | .int a, .int b => .ok (if a < b then -1 else if b < a then 1 else 0, true)
  | .str x, .str y =>
    if x = y then .ok (0, true)
    else do
      let a ← pool.get x
      let b ← pool.get y
      return (if Value.strLess a b then -1 else if Value.strLess b a then 1 else 0, true)
  | _, _ => .ok (0, false)

/-- The value a cell stands for. -/
def contents (pool : StringPool) : Cell → Except Exn Value
  | .null => .ok .null
  | .int i => .ok (.int i)
  | .str id => (pool.get id).map Value.str

variable {S : Finset Str} {pool : StringPool} {x y : Cell} {v w : Value}

theorem contents_str {id : StringPool.Id} (h : contents pool (.str id) = .ok v) :
    ∃ s, v = .str s ∧ pool.get id = .ok s := by
  cases hget : pool.get id with
  | error e => exact absurd h (by simp [contents, hget, Except.map])
  | ok s =>
    rw [contents, hget, Except.map, Except.ok.injEq] at h
    exact ⟨s, h.symm, rfl⟩

/-- A cell made of a string stands for it. -/
theorem contents_ofStr (h : pool.Holds S) (c : StringPool.Call)
    (hcard : (insert c.str S).card < 2 ^ 32) :
    contents (ofStr c pool).2 (ofStr c pool).1 = .ok (.str c.str) := by
  obtain ⟨-, hget, -⟩ := StringPool.intern_spec h hcard
  rw [ofStr, StringPool.Call.run_eq, contents, hget]
  rfl

/-- Cells of one pool are equal when their values are. -/
theorem equals_contents (h : pool.Holds S) (hx : contents pool x = .ok v)
    (hy : contents pool y = .ok w) : x.equals y = true ↔ v = w := by
  cases x with
  | null => cases y with
    | null => cases hx; cases hy; simp [equals]
    | int j => cases hx; cases hy; simp [equals]
    | str j =>
      obtain ⟨b, rfl, -⟩ := contents_str hy
      cases hx
      simp [equals]
  | int i => cases y with
    | null => cases hx; cases hy; simp [equals]
    | int j => cases hx; cases hy; simp [equals]
    | str j =>
      obtain ⟨b, rfl, -⟩ := contents_str hy
      cases hx
      simp [equals]
  | str i =>
    obtain ⟨a, rfl, ha⟩ := contents_str hx
    cases y with
    | null => cases hy; simp [equals]
    | int j => cases hy; simp [equals]
    | str j =>
      obtain ⟨b, rfl, hb⟩ := contents_str hy
      rw [equals, beq_iff_eq, h.get_inj ha hb, Value.str.injEq]

/-- Cells of one pool compare as their values do. -/
theorem compare_contents (h : pool.Holds S) (hx : contents pool x = .ok v)
    (hy : contents pool y = .ok w) : x.compare pool y = .ok (v.compare w) := by
  cases x with
  | null => cases hx; rfl
  | int i => cases y with
    | null => cases hx; cases hy; rfl
    | int j => cases hx; cases hy; rfl
    | str j =>
      obtain ⟨b, rfl, -⟩ := contents_str hy
      cases hx
      rfl
  | str i =>
    obtain ⟨a, rfl, ha⟩ := contents_str hx
    cases y with
    | null => cases hy; rfl
    | int j => cases hy; rfl
    | str j =>
      obtain ⟨b, rfl, hb⟩ := contents_str hy
      rw [compare, Value.compare]
      by_cases hab : a = b
      · rw [if_pos ((h.get_inj ha hb).mpr hab), if_pos hab]
      · rw [if_neg fun hij => hab ((h.get_inj ha hb).mp hij), if_neg hab, ha, hb]
        rfl

end Cell

namespace StringPool

/-- After any part of a run, and for any two calls in it: the first's id still means
its string, and the ids, the cells and their comparison tell the two strings apart
exactly when they differ. -/
theorem runCalls_bijective (calls : List Call)
    (hcalls : (calls.map Call.str).toFinset.card < 2 ^ 32) {n i j : Nat} {c d : Call}
    (hi : (calls.take n)[i]? = some c) (hj : (calls.take n)[j]? = some d) :
    ∃ x y, (runCalls calls new).1[i]? = some x ∧ (runCalls calls new).1[j]? = some y ∧
      x ≠ kInvalid ∧ (runCalls (calls.take n) new).2.get x = .ok c.str ∧
      (x = y ↔ c.str = d.str) ∧
      ((Cell.str x).equals (.str y) = true ↔ c.str = d.str) ∧
      ∃ sign, (Cell.str x).compare (runCalls (calls.take n) new).2 (.str y) = .ok (sign, true) ∧
        (sign = 0 ↔ c.str = d.str) := by
  have hcard : (strings (calls.take n) ∪ ∅).card < 2 ^ 32 := by
    rw [Finset.union_empty]
    refine (Finset.card_le_card ?_).trans_lt hcalls
    intro s hs
    rw [strings, List.mem_toFinset] at hs
    exact List.mem_toFinset.mpr (((List.take_sublist n calls).map Call.str).subset hs)
  obtain ⟨hheld, hids, -⟩ := runCalls_spec (calls.take n) holds_new hcard
  have hwhole : (runCalls calls new).1 = (runCalls (calls.take n) new).1 ++
      (runCalls (calls.drop n) (runCalls (calls.take n) new).2).1 := by
    have happend := congrArg Prod.fst (runCalls_append (calls.take n) (calls.drop n) new)
    rwa [List.take_append_drop] at happend
  have hat : ∀ (k : Nat) (e : Call), (calls.take n)[k]? = some e → ∃ z, (runCalls calls new).1[k]? = some z ∧
      (runCalls (calls.take n) new).2.get z = .ok e.str := by
    intro k e hk
    obtain ⟨hlt, rfl⟩ := List.getElem?_eq_some_iff.mp hk
    have hlt' : k < (runCalls (calls.take n) new).1.length := hids.length_eq ▸ hlt
    refine ⟨(runCalls (calls.take n) new).1[k], ?_, hids.get hlt hlt'⟩
    rw [hwhole, List.getElem?_append_left hlt', List.getElem?_eq_getElem hlt']
  obtain ⟨x, hx, hgx⟩ := hat i c hi
  obtain ⟨y, hy, hgy⟩ := hat j d hj
  have hcx : Cell.contents (runCalls (calls.take n) new).2 (.str x) = .ok (.str c.str) := by
    rw [Cell.contents, hgx]
    rfl
  have hcy : Cell.contents (runCalls (calls.take n) new).2 (.str y) = .ok (.str d.str) := by
    rw [Cell.contents, hgy]
    rfl
  refine ⟨x, y, hx, hy, (get_ok_iff.mp hgx).1, hgx, hheld.get_inj hgx hgy, ?_,
    (Value.compare (.str c.str) (.str d.str)).1, ?_, ?_⟩
  · rw [Cell.equals_contents hheld hcx hcy, Value.str.injEq]
  · rw [Cell.compare_contents hheld hcx hcy]
    rfl
  · have hc : Value.HasType .str (.str c.str) := ⟨rfl, rfl⟩
    have hd : Value.HasType .str (.str d.str) := ⟨rfl, rfl⟩
    rw [Value.compare_zero_iff hc hd, Value.str.injEq]

/-- The empty string is not the sentinel, and a string given away is found again. -/
theorem runCalls_bijective_threeCalls : ∃ x y,
    (runCalls [.copy [], .move [97], .copy [97]] new).1[1]? = some x ∧
    (runCalls [.copy [], .move [97], .copy [97]] new).1[2]? = some y ∧ x = y ∧ x ≠ kInvalid := by
  obtain ⟨x, y, hx, hy, hvalid, -, hxy, -⟩ :=
    runCalls_bijective [.copy [], .move [97], .copy [97]] (by decide)
      (n := 3) (i := 1) (j := 2) rfl rfl
  exact ⟨x, y, hx, hy, hxy.mpr rfl, hvalid⟩

end StringPool
end CwDb
