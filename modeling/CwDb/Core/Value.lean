import Mathlib.Data.List.Lex
import Mathlib.Data.Prod.Lex
import Mathlib.Order.Lattice

/-! Cell values and their comparison.

A value is NULL, a 64-bit integer or a byte string. The program interns strings
and stores their ids; ids and contents stand for each other one to one, so the
model keeps the contents. `Value.compare` returns what the source returns: a sign
and a flag that says whether the comparison meant anything. It means something on
two non-NULL values of one type only, and there it is the order of the type
(`compare_neg_iff`, `compare_zero_iff`): the signed order of integers, the
lexicographic order of unsigned bytes of strings. -/
namespace CwDb

/-- `std::string`: bytes, without a promise about their encoding. -/
abbrev Str := List UInt8

/-- A literal as the bytes of its characters. -/
def Str.ofString (s : String) : Str := s.toList.map fun c => UInt8.ofNat c.toNat

/-- A byte string inside a message. -/
def Str.text (s : Str) : String := String.ofList (s.map fun b => Char.ofNat b.toNat)

/-- The exceptions of the program with their `what()`. `diverges` is not one of
them: it stands for a loop that never ends. -/
inductive Exn where
  | runtimeError (what : String)
  | logicError (what : String)
  | lengthError (what : String)
  | invalidArgument (what : String)
  | outOfRange (what : String)
  | diverges
  deriving DecidableEq, Repr

def Exn.what : Exn → String
  | .runtimeError w | .logicError w | .lengthError w | .invalidArgument w | .outOfRange w => w
  | .diverges => ""

/-- A column type is a byte: a file can hold one that names no type. -/
inductive DataType where
  | int
  | str
  | other (byte : UInt8)
  deriving DecidableEq, Repr

def typeName : DataType → String
  | .int => "int"
  | .str => "string"
  | .other _ => "?"

inductive Value where
  | null
  | int (i : Int64)
  | str (s : Str)
  deriving DecidableEq, Repr, Inhabited

namespace Value

def isNull : Value → Bool
  | .null => true
  | _ => false

def isInt : Value → Bool
  | .int _ => true
  | _ => false

def isStr : Value → Bool
  | .str _ => true
  | _ => false

/-- Whether a value may stand in a column of the type: NULL may stand anywhere. -/
def matchesType (v : Value) (t : DataType) : Bool :=
  if v.isNull then true
  else match t with
    | .int => v.isInt
    | .str => v.isStr
    | .other _ => false

/-- `std::string`'s `<`: lexicographic on unsigned bytes. -/
def strLess : Str → Str → Bool
  | _, [] => false
  | [], _ :: _ => true
  | a :: as, b :: bs => decide (a < b) || (a == b && strLess as bs)

/-- The sign of the comparison, and whether it is valid. -/
def compare : Value → Value → Int × Bool
  | .null, _ => (0, false)
  | _, .null => (0, false)
  | .int a, .int b => (if a < b then -1 else if b < a then 1 else 0, true)
  | .str a, .str b =>
    -- the source compares the interned ids first: equal ids are equal contents
    (if a = b then 0 else if strLess a b then -1 else if strLess b a then 1 else 0, true)
  | _, _ => (0, false)

/-! ### The order behind the comparison -/

/-- A value's place in one order of all values: NULL, the integers, the strings. -/
def rank : Value → ℕ ×ₗ (ℤ ×ₗ List ℕ)
  | .null => toLex (0, toLex (0, []))
  | .int i => toLex (1, toLex (i.toInt, []))
  | .str s => toLex (2, toLex (0, s.map UInt8.toNat))

theorem rank_injective : Function.Injective rank := by
  intro a b h
  cases a <;> cases b <;> simp [rank] at h
  · rfl
  · rw [Int64.toInt_inj.mp h]
  · rw [List.map_injective_iff.mpr (fun x y hxy => UInt8.toNat_inj.mp hxy) h]

instance : LinearOrder Value := LinearOrder.lift' rank rank_injective

theorem lt_iff_rank (a b : Value) : a < b ↔ rank a < rank b := Iff.rfl

theorem int_lt_int (a b : Int64) : Value.int a < Value.int b ↔ a < b := by
  simp [lt_iff_rank, rank, Prod.Lex.toLex_lt_toLex, Int64.lt_iff_toInt_lt]

theorem strLess_iff (a b : Str) : strLess a b = true ↔ a.map UInt8.toNat < b.map UInt8.toNat := by
  induction a generalizing b with
  | nil => cases b <;> simp [strLess]
  | cons x xs ih =>
    cases b with
    | nil => simp [strLess]
    | cons y ys =>
      simp [strLess, ih, List.cons_lt_cons_iff, UInt8.lt_iff_toNat_lt, ← UInt8.toNat_inj]

theorem str_lt_str (a b : Str) : Value.str a < Value.str b ↔ strLess a b = true := by
  simp [lt_iff_rank, rank, Prod.Lex.toLex_lt_toLex, strLess_iff]

/-- The values an index of the type may hold: non-NULL, of the type. -/
def HasType (t : DataType) (v : Value) : Prop :=
  v.isNull = false ∧ v.matchesType t = true

instance (t : DataType) (v : Value) : Decidable (HasType t v) :=
  inferInstanceAs (Decidable (_ ∧ _))

theorem not_hasType_other {b : UInt8} {v : Value} : ¬ HasType (.other b) v := by
  rintro ⟨hn, hm⟩
  simp [matchesType, hn] at hm

theorem hasType_int {v : Value} (h : HasType .int v) : ∃ i, v = .int i := by
  obtain ⟨hn, hm⟩ := h
  cases v with
  | null => simp [isNull] at hn
  | int i => exact ⟨i, rfl⟩
  | str s => simp [matchesType, isNull, isInt] at hm

theorem hasType_str {v : Value} (h : HasType .str v) : ∃ s, v = .str s := by
  obtain ⟨hn, hm⟩ := h
  cases v with
  | null => simp [isNull] at hn
  | int i => simp [matchesType, isNull, isStr] at hm
  | str s => exact ⟨s, rfl⟩

/-- On two values of one type the comparison is valid and is their order. -/
theorem compare_eq {t : DataType} {a b : Value} (ha : HasType t a) (hb : HasType t b) :
    a.compare b = (if a < b then -1 else if b < a then 1 else 0, true) := by
  cases t with
  | int =>
    obtain ⟨i, rfl⟩ := hasType_int ha
    obtain ⟨j, rfl⟩ := hasType_int hb
    simp only [compare, int_lt_int]
  | str =>
    obtain ⟨x, rfl⟩ := hasType_str ha
    obtain ⟨y, rfl⟩ := hasType_str hb
    simp only [compare, str_lt_str]
    by_cases hxy : x = y
    · subst hxy
      have hirr : ¬ strLess x x = true := by rw [← str_lt_str]; exact lt_irrefl _
      simp [hirr]
    · simp [hxy]
  | other b => exact absurd ha not_hasType_other

section Signs
variable {t : DataType} {a b : Value} (ha : HasType t a) (hb : HasType t b)
include ha hb

theorem compare_valid : (a.compare b).2 = true := by
  rw [compare_eq ha hb]

theorem compare_neg_iff : (a.compare b).1 < 0 ↔ a < b := by
  rw [compare_eq ha hb]
  rcases lt_trichotomy a b with h | h | h
  · simp [h]
  · simp [h]
  · simp [h, not_lt_of_gt h]

theorem compare_pos_iff : 0 < (a.compare b).1 ↔ b < a := by
  rw [compare_eq ha hb]
  rcases lt_trichotomy a b with h | h | h
  · simp [h, not_lt_of_gt h]
  · simp [h]
  · simp [h, not_lt_of_gt h]

theorem compare_nonpos_iff : (a.compare b).1 ≤ 0 ↔ a ≤ b := by
  rw [← not_lt, compare_pos_iff ha hb, not_lt]

theorem compare_nonneg_iff : 0 ≤ (a.compare b).1 ↔ b ≤ a := by
  rw [← not_lt, compare_neg_iff ha hb, not_lt]

theorem compare_zero_iff : (a.compare b).1 = 0 ↔ a = b := by
  rw [le_antisymm_iff, compare_nonpos_iff ha hb, compare_nonneg_iff ha hb, ← le_antisymm_iff]

theorem compare_neg : (b.compare a).1 = -(a.compare b).1 := by
  rw [compare_eq ha hb, compare_eq hb ha]
  rcases lt_trichotomy a b with h | h | h
  · simp [h, not_lt_of_gt h]
  · simp [h]
  · simp [h, not_lt_of_gt h]

end Signs

/-- Only values of one type compare as less. -/
theorem lt_of_compare_neg {a b : Value} (h : (a.compare b).1 < 0) : a < b := by
  have hzero : ¬ (0 : Int) < 0 := lt_irrefl 0
  cases a with
  | null => exact absurd h hzero
  | int i =>
    cases b with
    | null => exact absurd h hzero
    | int j => exact (compare_neg_iff (t := .int) ⟨rfl, rfl⟩ ⟨rfl, rfl⟩).mp h
    | str s => exact absurd h hzero
  | str s =>
    cases b with
    | null => exact absurd h hzero
    | int j => exact absurd h hzero
    | str r => exact (compare_neg_iff (t := .str) ⟨rfl, rfl⟩ ⟨rfl, rfl⟩).mp h

end Value
end CwDb
