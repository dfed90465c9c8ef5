import Mathlib.Logic.Basic

/-! Kleene's strong three-valued logic.

A conjunction is false as soon as one side is, a disjunction true as soon as one
side is; else unknown wins. Only truth is asked of a condition in the end, and
truth of a conjunction or disjunction is that of its sides (`and_eq_true`,
`or_eq_true`). -/
namespace Foundation

inductive Truth where
  | false
  | unknown
  | true
  deriving DecidableEq, Repr

namespace Truth

def ofBool : Bool → Truth
  | .true => .true
  | .false => .false

def and : Truth → Truth → Truth
  | .false, _ => .false
  | _, .false => .false
  | .true, .true => .true
  | _, _ => .unknown

def or : Truth → Truth → Truth
  | .true, _ => .true
  | _, .true => .true
  | .false, .false => .false
  | _, _ => .unknown

@[simp] theorem ofBool_eq_true {b : Bool} : ofBool b = .true ↔ b = .true := by
  cases b <;> simp [ofBool]

@[simp] theorem and_eq_true {a b : Truth} : a.and b = .true ↔ a = .true ∧ b = .true := by
  cases a <;> cases b <;> simp [and]

@[simp] theorem or_eq_true {a b : Truth} : a.or b = .true ↔ a = .true ∨ b = .true := by
  cases a <;> cases b <;> simp [or]

end Truth
end Foundation
