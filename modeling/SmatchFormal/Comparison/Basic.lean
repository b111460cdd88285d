import Mathlib.Order.Lattice
import Mathlib.Tactic.Common

/-!
# Comparison constants

The `int comparison` of the source holds one of the ten comparison tokens or one
of the two constants `UNKNOWN_COMPARISON` and `IMPOSSIBLE_COMPARISON`.  The
unsigned tokens are the spelling a comparison gets when the compared values have
an unsigned type; values carry their type here, so both spellings of an operator
stand for the order of the values.
-/

namespace SmatchFormal

inductive Comparison where
  | lt | unsignedLt
  | lte | unsignedLte
  | equal
  | notEqual
  | gte | unsignedGte
  | gt | unsignedGt
  | unknown
  | impossible
  deriving DecidableEq, Repr

namespace Comparison

variable {α : Type*} [LinearOrder α]

def Holds : Comparison → α → α → Prop
  | lt, a, b | unsignedLt, a, b => a < b
  | lte, a, b | unsignedLte, a, b => a ≤ b
  | equal, a, b => a = b
  | notEqual, a, b => a ≠ b
  | gte, a, b | unsignedGte, a, b => b ≤ a
  | gt, a, b | unsignedGt, a, b => b < a
  | unknown, _, _ => True
  | impossible, _, _ => False

instance decidableHolds : (op : Comparison) → (a b : α) → Decidable (op.Holds a b)
  | lt, a, b | unsignedLt, a, b => inferInstanceAs (Decidable (a < b))
  | lte, a, b | unsignedLte, a, b => inferInstanceAs (Decidable (a ≤ b))
  | equal, a, b => inferInstanceAs (Decidable (a = b))
  | notEqual, a, b => inferInstanceAs (Decidable (a ≠ b))
  | gte, a, b | unsignedGte, a, b => inferInstanceAs (Decidable (b ≤ a))
  | gt, a, b | unsignedGt, a, b => inferInstanceAs (Decidable (b < a))
  | unknown, _, _ => inferInstanceAs (Decidable True)
  | impossible, _, _ => inferInstanceAs (Decidable False)

def IsOperator (op : Comparison) : Prop := op ≠ unknown ∧ op ≠ impossible

instance (op : Comparison) : Decidable op.IsOperator :=
  inferInstanceAs (Decidable (_ ∧ _))

end Comparison

open Comparison

def flipComparison : Comparison → Comparison
  | unknown => unknown
  | lt => gt
  | unsignedLt => unsignedGt
  | lte => gte
  | unsignedLte => unsignedGte
  | equal => equal
  | notEqual => notEqual
  | gte => lte
  | unsignedGte => unsignedLte
  | gt => lt
  | unsignedGt => unsignedLt
  | impossible => unknown

def negateComparison : Comparison → Comparison
  | unknown => unknown
  | lt => gte
  | unsignedLt => unsignedGte
  | lte => gt
  | unsignedLte => unsignedGt
  | equal => notEqual
  | notEqual => equal
  | gte => lt
  | unsignedGte => unsignedLt
  | gt => lte
  | unsignedGt => unsignedLte
  | impossible => unknown

section Tables

variable {α : Type*} [LinearOrder α] {op : Comparison} {a b : α}

section

variable (operator : op.IsOperator)
include operator

theorem flipComparison_isOperator : (flipComparison op).IsOperator := by
  revert operator
  cases op <;> decide

theorem negateComparison_isOperator :
    (negateComparison op).IsOperator := by
  revert operator
  cases op <;> decide

theorem negateComparison_flip :
    negateComparison (flipComparison op) = flipComparison (negateComparison op) := by
  revert operator
  cases op <;> decide

theorem flipComparison_holds :
    (flipComparison op).Holds b a ↔ op.Holds a b := by
  cases op with
  | lt | unsignedLt | lte | unsignedLte | gte | unsignedGte | gt | unsignedGt => exact Iff.rfl
  | equal => exact eq_comm
  | notEqual => exact ne_comm
  | unknown => exact absurd rfl operator.1
  | impossible => exact absurd rfl operator.2

theorem negateComparison_holds :
    (negateComparison op).Holds a b ↔ ¬ op.Holds a b := by
  cases op with
  | lt | unsignedLt | gt | unsignedGt => exact not_lt.symm
  | lte | unsignedLte | gte | unsignedGte => exact not_le.symm
  | equal => exact Iff.rfl
  | notEqual => exact not_not.symm
  | unknown => exact absurd rfl operator.1
  | impossible => exact absurd rfl operator.2

end

end Tables

end SmatchFormal
