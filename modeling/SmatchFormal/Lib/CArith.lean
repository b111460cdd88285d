import Mathlib.Data.Nat.Bitwise
import SmatchFormal.Lib.Quotients

/-!
# Integer arithmetic of C

The integer types of an LP64 implementation, the conversions between them, and the binary
operators where the language defines their result.  Conversions to a signed type and right
shifts of negative numbers, which the language leaves to the implementation, are those of two's
complement.
-/

namespace SmatchFormal.Lib.CArith

inductive IntType
  | bool
  | char
  | schar
  | uchar
  | short
  | ushort
  | int
  | uint
  | long
  | ulong
  | llong
  | ullong
  deriving DecidableEq, Repr

namespace IntType

def width : IntType → Nat
  | bool => 1
  | char | schar | uchar => 8
  | short | ushort => 16
  | int | uint => 32
  | long | ulong | llong | ullong => 64

def unsigned : IntType → Bool
  | bool | uchar | ushort | uint | ulong | ullong => true
  | char | schar | short | int | long | llong => false

def rank : IntType → Nat
  | bool => 0
  | char | schar | uchar => 1
  | short | ushort => 2
  | int | uint => 3
  | long | ulong => 4
  | llong | ullong => 5

def lo (type : IntType) : Int := if type.unsigned then 0 else -2 ^ (type.width - 1)

def hi (type : IntType) : Int :=
  if type.unsigned then 2 ^ type.width - 1 else 2 ^ (type.width - 1) - 1

def convert (type : IntType) (x : Int) : Int :=
  if type = bool then if x = 0 then 0 else 1
  else if type.unsigned then x % 2 ^ type.width
  else (x + 2 ^ (type.width - 1)) % 2 ^ type.width - 2 ^ (type.width - 1)

/-- The integer promotions; `int` has every value of the types of lower rank. -/
def promote (type : IntType) : IntType := if type.rank < int.rank then int else type

def toUnsigned : IntType → IntType
  | char | schar => uchar
  | short => ushort
  | int => uint
  | long => ulong
  | llong => ullong
  | type => type

def commonMixed (signed unsigned : IntType) : IntType :=
  if signed.rank ≤ unsigned.rank then unsigned
  else if unsigned.hi ≤ signed.hi then signed
  else signed.toUnsigned

def commonPromoted (left right : IntType) : IntType :=
  if left = right then left
  else if left.unsigned = right.unsigned then if left.rank < right.rank then right else left
  else if left.unsigned then commonMixed right left
  else commonMixed left right

def common (left right : IntType) : IntType := commonPromoted left.promote right.promote

end IntType

inductive Operator
  | mul
  | div
  | mod
  | add
  | sub
  | shiftLeft
  | shiftRight
  | and
  | xor
  | or
  deriving DecidableEq, Repr

namespace IntType

/-- A result of unsigned arithmetic is converted, one of signed arithmetic must fit. -/
def arith (type : IntType) (x : Int) : Option Int :=
  if type.unsigned then some (type.convert x)
  else if type.lo ≤ x ∧ x ≤ type.hi then some x
  else none

def bitwise (type : IntType) (op : Nat → Nat → Nat) (x y : Int) : Int :=
  type.convert (op (x % 2 ^ type.width).toNat (y % 2 ^ type.width).toNat : Nat)

end IntType

open IntType

def evalShift (op : Operator) (type : IntType) (x y : Int) : Option Int :=
  if 0 ≤ y ∧ y < type.width then
    if op = .shiftRight then some (x / 2 ^ y.toNat)
    else if 0 ≤ x then type.arith (x * 2 ^ y.toNat)
    else none
  else none

/-- The other operators, on operands of the common type.  A remainder is defined where the
quotient is. -/
def evalCommon (op : Operator) (type : IntType) (x y : Int) : Option Int :=
  match op with
  | .mul => type.arith (x * y)
  | .div => if y = 0 then none else type.arith (x.tdiv y)
  | .mod => if y = 0 then none else (type.arith (x.tdiv y)).map fun _ => x.tmod y
  | .add => type.arith (x + y)
  | .sub => type.arith (x - y)
  | .and => some (type.bitwise Nat.land x y)
  | .xor => some (type.bitwise Nat.xor x y)
  | .or => some (type.bitwise Nat.lor x y)
  | .shiftLeft | .shiftRight => none

/-- The type and the value of an expression with a binary operator, where they are defined. -/
def eval (op : Operator) (left right : IntType) (x y : Int) : Option (IntType × Int) :=
  if op = .shiftLeft ∨ op = .shiftRight then
    (evalShift op left.promote (left.promote.convert x) y).map fun value => (left.promote, value)
  else
    let type := left.common right
    (evalCommon op type (type.convert x) (type.convert y)).map fun value => (type, value)

namespace IntType

variable {type left right : IntType} {x y : Int}

theorem convert_of_mem (low : type.lo ≤ x) (high : x ≤ type.hi) : type.convert x = x := by
  revert low high
  cases type <;> simp [lo, hi, convert, unsigned, width] <;> intro low high
  · by_cases zero : x = 0
    · exact zero.symm ▸ rfl
    · rw [if_neg zero]
      omega
  all_goals omega

/-- A conversion other than to `bool` depends on the bits of the type only. -/
theorem convert_congr (other : type ≠ bool) (same : x % 2 ^ type.width = y % 2 ^ type.width) :
    type.convert x = type.convert y := by
  unfold convert
  rw [if_neg other, if_neg other]
  split_ifs
  · exact same
  · rw [Int.add_emod, same, ← Int.add_emod]

theorem convert_emod (other : type ≠ bool) (x : Int) :
    type.convert x % 2 ^ type.width = x % 2 ^ type.width := by
  unfold convert
  rw [if_neg other]
  split_ifs
  · exact Int.emod_emod_of_dvd x (dvd_refl _)
  · rw [Int.sub_emod, Int.emod_emod_of_dvd _ (dvd_refl _), ← Int.sub_emod, Int.add_sub_cancel]

theorem convert_bounds (type : IntType) (x : Int) :
    type.lo ≤ type.convert x ∧ type.convert x ≤ type.hi := by
  cases type <;> simp [lo, hi, convert, unsigned, width]
  case bool => split <;> omega
  all_goals omega

theorem convert_unsigned (sign : type.unsigned = true) (other : type ≠ bool) (x : Int) :
    type.convert x = x % 2 ^ type.width := by
  unfold convert
  rw [if_neg other, if_pos sign]

theorem zero_bounds (type : IntType) : type.lo ≤ 0 ∧ 0 ≤ type.hi := by
  cases type <;> decide

theorem convert_zero (type : IntType) : type.convert 0 = 0 := by
  cases type <;> decide

/-- The conversion after an arithmetic operator on converted numbers. -/
theorem convert_add (other : type ≠ bool) (x y : Int) :
    type.convert (type.convert x + type.convert y) = type.convert (x + y) := by
  refine convert_congr other ?_
  rw [Int.add_emod, convert_emod other, convert_emod other, ← Int.add_emod]

theorem convert_sub (other : type ≠ bool) (x y : Int) :
    type.convert (type.convert x - type.convert y) = type.convert (x - y) := by
  refine convert_congr other ?_
  rw [Int.sub_emod, convert_emod other, convert_emod other, ← Int.sub_emod]

theorem convert_mul (other : type ≠ bool) (x y : Int) :
    type.convert (type.convert x * type.convert y) = type.convert (x * y) := by
  refine convert_congr other ?_
  rw [Int.mul_emod, convert_emod other, convert_emod other, ← Int.mul_emod]

theorem arith_eq_some {value : Int} (defined : type.arith x = some value) :
    value = type.convert x := by
  unfold arith at defined
  split_ifs at defined with sign fits
  · exact (Option.some.inj defined).symm
  · rw [convert_of_mem fits.1 fits.2]
    exact (Option.some.inj defined).symm

theorem arith_bounds {value : Int} (defined : type.arith x = some value) :
    type.lo ≤ value ∧ value ≤ type.hi := by
  rw [arith_eq_some defined]
  exact convert_bounds type x

/-- A result on bits depends on the bits of the operands only. -/
theorem bitwise_convert {op : Nat → Nat → Nat} (other : type ≠ bool)
    (parts : ∀ x y, op x y % 2 ^ type.width = op (x % 2 ^ type.width) (y % 2 ^ type.width))
    (wide : type.width ≤ 64) (x y : Int) :
    type.bitwise op (type.convert x) (type.convert y) =
      type.convert (op (x % 2 ^ 64).toNat (y % 2 ^ 64).toNat : Nat) := by
  have narrow : ∀ z : Int, (z % 2 ^ 64).toNat % 2 ^ type.width = (z % 2 ^ type.width).toNat := by
    intro z
    have start := Int.emod_nonneg z (b := 2 ^ 64) (by decide)
    have divides : (2 : Int) ^ type.width ∣ 2 ^ 64 := pow_dvd_pow 2 wide
    have whole : (((z % 2 ^ 64).toNat % 2 ^ type.width : Nat) : Int) = z % 2 ^ type.width := by
      rw [Int.natCast_mod, Int.toNat_of_nonneg start, Int.natCast_pow]
      exact Int.emod_emod_of_dvd z divides
    omega
  unfold bitwise
  refine convert_congr other ?_
  rw [convert_emod other, convert_emod other, ← narrow x, ← narrow y]
  have bits := parts ((x % 2 ^ 64).toNat) ((y % 2 ^ 64).toNat)
  rw [← bits]
  norm_cast
  exact Nat.mod_mod _ _

theorem common_ne_bool (left right : IntType) : left.common right ≠ bool := by
  cases left <;> cases right <;> decide

/-- The promoted type has the values of the type. -/
theorem convert_promote (low : type.lo ≤ x) (high : x ≤ type.hi) : type.promote.convert x = x := by
  have bounds : type.promote.lo ≤ type.lo ∧ type.hi ≤ type.promote.hi := by
    cases type <;> decide
  exact convert_of_mem (Int.le_trans bounds.1 low) (Int.le_trans high bounds.2)

/-- A signed common type has the values of both types. -/
theorem common_signed (sign : (left.common right).unsigned = false) :
    ((left.common right).lo ≤ left.lo ∧ left.hi ≤ (left.common right).hi) ∧
      (left.common right).lo ≤ right.lo ∧ right.hi ≤ (left.common right).hi := by
  revert sign
  cases left <;> cases right <;> decide

/-- An unsigned common type other than `unsigned int` has 64 bits. -/
theorem common_unsigned (sign : (left.common right).unsigned = true) :
    left.common right = uint ∨ (left.common right).width = 64 := by
  revert sign
  cases left <;> cases right <;> decide

/-- For `unsigned int` one of the types is `unsigned int` itself. -/
theorem common_uint (same : left.common right = uint) :
    (left.lo = 0 ∨ right.lo = 0) ∧ (int.lo ≤ left.lo ∧ left.hi ≤ uint.hi) ∧
      int.lo ≤ right.lo ∧ right.hi ≤ uint.hi := by
  revert same
  cases left <;> cases right <;> decide

theorem width_le (type : IntType) : type.width ≤ 64 := by
  cases type <;> decide

end IntType

variable {left right type : IntType} {op : Operator} {x y value : Int}

theorem evalCommon_bounds (low : type.lo ≤ x) (high : x ≤ type.hi)
    (defined : evalCommon op type x y = some value) : type.lo ≤ value ∧ value ≤ type.hi := by
  cases op with
  | mul => exact arith_bounds defined
  | add => exact arith_bounds defined
  | sub => exact arith_bounds defined
  | div =>
    simp only [evalCommon] at defined
    split_ifs at defined
    exact arith_bounds defined
  | mod =>
    simp only [evalCommon] at defined
    split_ifs at defined
    obtain ⟨quotient, -, rfl⟩ := Option.map_eq_some_iff.mp defined
    have between := Quotients.tmod_between x y
    have zero := zero_bounds type
    omega
  | and | xor | or =>
    obtain rfl := Option.some.inj defined
    exact convert_bounds type _
  | shiftLeft | shiftRight => cases defined

theorem evalCommon_div_unsigned (sign : type.unsigned = true) (first : 0 ≤ x ∧ x ≤ type.hi)
    (second : 0 ≤ y) (defined : evalCommon .div type x y = some value) :
    y ≠ 0 ∧ value = x / y := by
  have low : type.lo = 0 := if_pos sign
  simp only [evalCommon] at defined
  split_ifs at defined with zero
  have between := Quotients.ediv_between x (d := y) (by omega)
  refine ⟨zero, ?_⟩
  rw [arith_eq_some defined, Int.tdiv_eq_ediv_of_nonneg first.1]
  exact convert_of_mem (by omega) (by omega)

theorem evalCommon_mod_unsigned (first : 0 ≤ x)
    (defined : evalCommon .mod type x y = some value) : y ≠ 0 ∧ value = x % y := by
  simp only [evalCommon] at defined
  split_ifs at defined with zero
  obtain ⟨quotient, -, rfl⟩ := Option.map_eq_some_iff.mp defined
  exact ⟨zero, Int.tmod_eq_emod_of_nonneg first⟩

theorem evalShift_bounds (low : type.lo ≤ x) (high : x ≤ type.hi)
    (defined : evalShift op type x y = some value) : type.lo ≤ value ∧ value ≤ type.hi := by
  unfold evalShift at defined
  split_ifs at defined with count right nonneg
  · obtain rfl := Option.some.inj defined
    have zero := zero_bounds type
    have size := Quotients.ediv_between x (pow_pos (by decide : (0 : Int) < 2) y.toNat)
    omega
  · exact arith_bounds defined

theorem eval_bounds (defined : eval op left right x y = some (type, value)) :
    type.lo ≤ value ∧ value ≤ type.hi := by
  unfold eval at defined
  split_ifs at defined
  · obtain ⟨result, defined, same⟩ := Option.map_eq_some_iff.mp defined
    cases same
    exact evalShift_bounds (convert_bounds _ x).1 (convert_bounds _ x).2 defined
  · obtain ⟨result, defined, same⟩ := Option.map_eq_some_iff.mp defined
    cases same
    exact evalCommon_bounds (convert_bounds _ x).1 (convert_bounds _ x).2 defined

end SmatchFormal.Lib.CArith
