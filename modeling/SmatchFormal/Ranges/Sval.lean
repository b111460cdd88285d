import Mathlib.Data.Int.ConditionallyCompleteOrder
import Mathlib.Tactic.Positivity
import Mathlib.Tactic.Ring

/-!
# Integer symbols and `sval_t`

The integer part of `smatch_sval.c` and of the type helpers of `smatch.h` and
`smatch_type.c`.  A type is the `struct symbol` the code points to: its address,
which the code compares, and the width and signedness it reads.  The types are
the C integer types of an LP64 target, enumerations included; pointer, floating
point and bit-field symbols are not values of `Ctype`.

An `sval_t` is a type and 64 bits.  The union members `value` and `uvalue` are
the two readings of these bits, and `val` is the reading its type selects.
-/

namespace SmatchFormal.Ranges

inductive IntKind where
  | bool | s8 | u8 | s16 | u16 | s32 | u32 | s64 | u64
  deriving DecidableEq, Repr

namespace IntKind

def bits : IntKind → Nat
  | bool => 1
  | s8 | u8 => 8
  | s16 | u16 => 16
  | s32 | u32 => 32
  | s64 | u64 => 64

def unsigned : IntKind → Bool
  | bool | u8 | u16 | u32 | u64 => true
  | s8 | s16 | s32 | s64 => false

def positiveBits (kind : IntKind) : Nat := if kind.unsigned then kind.bits else kind.bits - 1

end IntKind

/-- An integer `struct symbol`; two symbols of one kind at different addresses
are different types (`long` and `long long`, or two enumerations). -/
structure Ctype where
  address : Nat
  kind : IntKind
  deriving DecidableEq, Repr

def boolCtype : Ctype := ⟨0, .bool⟩
def intCtype : Ctype := ⟨1, .s32⟩
def uintCtype : Ctype := ⟨2, .u32⟩
def llongCtype : Ctype := ⟨3, .s64⟩
def ullongCtype : Ctype := ⟨4, .u64⟩
def scharCtype : Ctype := ⟨5, .s8⟩

def typeBits (type : Ctype) : Nat := type.kind.bits

def typeUnsigned (type : Ctype) : Bool := type.kind.unsigned

def typeSigned (type : Ctype) : Bool := !typeUnsigned type

def typePositiveBits (type : Ctype) : Nat := type.kind.positiveBits

/-- `sval_t`: a type and the 64 bits shared by `value` and `uvalue`. -/
structure Sval where
  type : Ctype
  raw : BitVec 64
  deriving DecidableEq, Repr

namespace Sval

def value (sval : Sval) : Int := sval.raw.toInt

def uvalue (sval : Sval) : Nat := sval.raw.toNat

/-- The number an `sval_t` stands for: `uvalue` for unsigned types, else `value`. -/
def val (sval : Sval) : Int :=
  if typeUnsigned sval.type then (sval.uvalue : Int) else sval.value

end Sval

def svalTypeVal (type : Ctype) (val : BitVec 64) : Sval := ⟨type, val⟩

def svalUnsigned (sval : Sval) : Bool := typeUnsigned sval.type

def svalSigned (sval : Sval) : Bool := !typeUnsigned sval.type

def svalPositiveBits (sval : Sval) : Nat := typePositiveBits sval.type

def svalIsNegative (sval : Sval) : Bool :=
  if typeUnsigned sval.type then false else decide (sval.value < 0)

def svalIsPositive (sval : Sval) : Bool := !svalIsNegative sval

def addOne (sval : Sval) : Sval := { sval with raw := sval.raw + 1 }

def subOne (sval : Sval) : Sval := { sval with raw := sval.raw - 1 }

def svalTypeMax (type : Ctype) : Sval :=
  ⟨type, BitVec.allOnes 64 >>> (64 - typePositiveBits type)⟩

def svalTypeMin (type : Ctype) : Sval :=
  if typeUnsigned type then ⟨type, 0⟩
  else ⟨type, BitVec.allOnes 64 <<< typePositiveBits type⟩

def svalIsMin (sval : Sval) : Bool :=
  if svalUnsigned sval then sval.uvalue == 0
  else decide (sval.value ≤ (svalTypeMin sval.type).value)

def svalIsMax (sval : Sval) : Bool :=
  if svalUnsigned sval then decide (sval.uvalue ≥ (svalTypeMax sval.type).uvalue)
  else decide (sval.value ≥ (svalTypeMax sval.type).value)

/-- The C conversion to a narrower integer and back to `long long`. -/
def castBits (width : Nat) (unsigned : Bool) (raw : BitVec 64) : BitVec 64 :=
  if unsigned then (raw.setWidth width).setWidth 64 else (raw.setWidth width).signExtend 64

def svalCast (type : Ctype) (sval : Sval) : Sval :=
  match typeBits type with
  | 1 => ⟨type, if sval.raw = 0 then 0 else 1⟩
  | 8 => ⟨type, castBits 8 (typeUnsigned type) sval.raw⟩
  | 16 => ⟨type, castBits 16 (typeUnsigned type) sval.raw⟩
  | 32 => ⟨type, castBits 32 (typeUnsigned type) sval.raw⟩
  | _ => ⟨type, sval.raw⟩

def svalCmpType (one two : Sval) : Ctype :=
  let type := if svalPositiveBits two > svalPositiveBits one then two.type else one.type
  if typeBits type < 31 then intCtype else type

def svalCmp (one two : Sval) : Int :=
  let type := svalCmpType one two
  let one := svalCast type one
  let two := svalCast type two
  if typeUnsigned type then
    if one.uvalue < two.uvalue then -1 else if one.uvalue = two.uvalue then 0 else 1
  else
    if one.value < two.value then -1 else if one.value = two.value then 0 else 1

def svalTooLow (type : Ctype) (sval : Sval) : Bool :=
  if svalIsNegative sval && typeUnsigned type then true
  else if typeSigned type && svalUnsigned sval then false
  else if typeSigned sval.type && decide (sval.value < (svalTypeMin type).value) then true
  else decide (svalCmp sval (svalTypeMin type) < 0)

def svalTooHigh (type : Ctype) (sval : Sval) : Bool :=
  if svalIsNegative sval then false
  else decide (sval.uvalue > (svalTypeMax type).uvalue)

def svalFits (type : Ctype) (sval : Sval) : Bool :=
  if svalTooLow type sval then false
  else if svalTooHigh type sval then false
  else true

namespace IntKind

def lo (kind : IntKind) : Int := if kind.unsigned then 0 else -2 ^ (kind.bits - 1)

def hi (kind : IntKind) : Int :=
  if kind.unsigned then 2 ^ kind.bits - 1 else 2 ^ (kind.bits - 1) - 1

/-- The C conversion of a number to the kind: a truth value for `_Bool`, the
congruent number of the kind otherwise. -/
def wrap (kind : IntKind) (x : Int) : Int :=
  if kind = bool then if x = 0 then 0 else 1
  else if kind.unsigned then x % 2 ^ kind.bits
  else (x + 2 ^ (kind.bits - 1)) % 2 ^ kind.bits - 2 ^ (kind.bits - 1)

theorem bounds (kind : IntKind) :
    -2 ^ 63 ≤ kind.lo ∧ kind.lo ≤ 0 ∧ 1 ≤ kind.hi ∧ kind.hi < 2 ^ 64 := by
  cases kind <;> decide

theorem lo_of_unsigned {kind : IntKind} (unsigned : kind.unsigned = true) : kind.lo = 0 := by
  simp [lo, unsigned]

theorem hi_of_signed {kind : IntKind} (signed : kind.unsigned = false) : kind.hi < 2 ^ 63 := by
  revert signed
  cases kind <;> decide

/-- Only the unsigned kind of 64 bits has 64 positive bits. -/
theorem hi_of_positiveBits {kind : IntKind} (narrow : kind.positiveBits ≠ 64) :
    kind.hi < 2 ^ 63 := by
  revert narrow
  cases kind <;> decide

theorem positiveBits_of_signed {kind : IntKind} (signed : kind.unsigned = false) :
    kind.positiveBits ≠ 64 := by
  revert signed
  cases kind <;> decide

theorem wrap_bounds (kind : IntKind) (x : Int) : kind.lo ≤ kind.wrap x ∧ kind.wrap x ≤ kind.hi := by
  cases kind <;> simp [lo, hi, wrap, unsigned, bits]
  case bool => split <;> omega
  all_goals omega

/-- The conversion leaves the values of the kind alone. -/
theorem wrap_of_mem {kind : IntKind} {x : Int} (low : kind.lo ≤ x) (high : x ≤ kind.hi) :
    kind.wrap x = x := by
  cases kind <;> simp [lo, hi, wrap, unsigned, bits] at low high ⊢
  case bool => split <;> omega
  all_goals omega

end IntKind

namespace Ctype

def lo (type : Ctype) : Int := type.kind.lo

def hi (type : Ctype) : Int := type.kind.hi

def wrap (type : Ctype) (x : Int) : Int := type.kind.wrap x

def ofInt (type : Ctype) (x : Int) : Sval := ⟨type, BitVec.ofInt 64 x⟩

end Ctype

namespace Sval

/-- The bits as the two readings, in terms of the number they stand for. -/
theorem uvalue_eq (sval : Sval) : (sval.uvalue : Int) = sval.val % 2 ^ 64 := by
  have small := sval.raw.isLt
  have signed := BitVec.toInt_eq_toNat_cond sval.raw
  unfold val uvalue value
  split
  · omega
  · split at signed <;> omega

theorem value_eq (sval : Sval) : sval.value = (sval.val + 2 ^ 63) % 2 ^ 64 - 2 ^ 63 := by
  have small := sval.raw.isLt
  have signed := BitVec.toInt_eq_toNat_cond sval.raw
  unfold val uvalue value
  split <;> split at signed <;> omega

theorem val_of_unsigned {sval : Sval} (unsigned : typeUnsigned sval.type = true) :
    sval.val = sval.uvalue := by
  simp [val, unsigned]

theorem val_of_signed {sval : Sval} (signed : typeUnsigned sval.type = false) :
    sval.val = sval.value := by
  simp [val, signed]

theorem val_bounds (sval : Sval) : -2 ^ 63 ≤ sval.val ∧ sval.val < 2 ^ 64 := by
  have small := sval.raw.isLt
  have signed := BitVec.toInt_eq_toNat_cond sval.raw
  unfold val uvalue value
  split <;> split at signed <;> omega

theorem raw_eq_zero_iff (sval : Sval) : sval.raw = 0 ↔ sval.val = 0 := by
  have word := sval.uvalue_eq
  have range := sval.val_bounds
  rw [← BitVec.toNat_inj]
  simp only [uvalue] at word
  simp only [BitVec.ofNat_eq_ofNat, BitVec.toNat_ofNat, Nat.zero_mod]
  omega

theorem ext_val {one two : Sval} (types : one.type = two.type) (vals : one.val = two.val) :
    one = two := by
  have first := one.uvalue_eq
  have second := two.uvalue_eq
  have words : one.raw.toNat = two.raw.toNat := by
    unfold uvalue at first second
    omega
  cases one
  cases two
  simp only at types words
  rw [types, BitVec.eq_of_toNat_eq words]

/-- `sval` is a value of the type: the type is its own and the number is in range. -/
def OfType (sval : Sval) (type : Ctype) : Prop :=
  sval.type = type ∧ type.lo ≤ sval.val ∧ sval.val ≤ type.hi

instance (sval : Sval) (type : Ctype) : Decidable (sval.OfType type) :=
  inferInstanceAs (Decidable (_ ∧ _ ∧ _))

end Sval

theorem Ctype.ofInt_val {type : Ctype} {x : Int} (low : type.lo ≤ x) (high : x ≤ type.hi) :
    (type.ofInt x).val = x := by
  obtain ⟨word, small, -, large⟩ := type.kind.bounds
  unfold Ctype.lo at low
  unfold Ctype.hi at high
  unfold Sval.val Ctype.ofInt Sval.uvalue Sval.value typeUnsigned
  split
  · rename_i unsigned
    rw [IntKind.lo_of_unsigned unsigned] at low
    simp only [BitVec.toNat_ofInt]
    omega
  · rename_i signed
    have top : type.kind.hi < 2 ^ 63 := IntKind.hi_of_signed (Bool.eq_false_iff.mpr signed)
    simp only [BitVec.toInt_ofInt, Int.bmod]
    split <;> omega

theorem Ctype.ofInt_ofType {type : Ctype} {x : Int} (low : type.lo ≤ x) (high : x ≤ type.hi) :
    (type.ofInt x).OfType type := by
  refine ⟨rfl, ?_, ?_⟩
  · rwa [Ctype.ofInt_val low high]
  · rwa [Ctype.ofInt_val low high]

@[simp] theorem svalCast_type (type : Ctype) (sval : Sval) : (svalCast type sval).type = type := by
  unfold svalCast
  split <;> rfl

theorem svalCast_val (type : Ctype) (sval : Sval) :
    (svalCast type sval).val = type.wrap sval.val := by
  have word := sval.uvalue_eq
  have small := sval.raw.isLt
  have signed := BitVec.toInt_eq_toNat_cond sval.raw
  have range := sval.val_bounds
  have zero := sval.raw_eq_zero_iff
  obtain ⟨address, kind⟩ := type
  simp only [Sval.uvalue] at word
  generalize sval.val = x at *
  cases kind
  case bool =>
      simp only [svalCast, typeBits, IntKind.bits, Sval.val, typeUnsigned, IntKind.unsigned,
        Ctype.wrap, IntKind.wrap, Sval.uvalue, if_true, zero]
      split <;> rfl
  all_goals
    simp [svalCast, castBits, Sval.val, typeBits, typeUnsigned, Ctype.wrap, IntKind.wrap,
      IntKind.bits, IntKind.unsigned, Sval.uvalue, Sval.value, BitVec.toInt_setWidth,
      BitVec.toInt_signExtend_of_le, Int.bmod]
    omega

theorem svalCast_ofType (type : Ctype) (sval : Sval) : (svalCast type sval).OfType type := by
  have range := type.kind.wrap_bounds sval.val
  refine ⟨svalCast_type type sval, ?_, ?_⟩
  · rw [svalCast_val]
    exact range.1
  · rw [svalCast_val]
    exact range.2

/-- A cast of a number of the target type changes the type only. -/
theorem svalCast_val_of_mem {type : Ctype} {sval : Sval}
    (low : type.lo ≤ sval.val) (high : sval.val ≤ type.hi) :
    (svalCast type sval).val = sval.val := by
  rw [svalCast_val]
  exact IntKind.wrap_of_mem low high

theorem svalCast_self {type : Ctype} {sval : Sval} (typed : sval.OfType type) :
    svalCast type sval = sval :=
  Sval.ext_val ((svalCast_type type sval).trans typed.1.symm)
    (svalCast_val_of_mem typed.2.1 typed.2.2)

@[simp] theorem svalTypeMax_val (type : Ctype) : (svalTypeMax type).val = type.hi := by
  obtain ⟨address, kind⟩ := type
  cases kind <;> simp only [svalTypeMax, Sval.val, Sval.uvalue, Sval.value, typeUnsigned,
    typePositiveBits, IntKind.positiveBits, IntKind.bits, IntKind.unsigned, Ctype.hi, if_true,
    Bool.false_eq_true, if_false] <;> decide

@[simp] theorem svalTypeMin_val (type : Ctype) : (svalTypeMin type).val = type.lo := by
  obtain ⟨address, kind⟩ := type
  cases kind <;> simp only [svalTypeMin, Sval.val, Sval.uvalue, Sval.value, typeUnsigned,
    typePositiveBits, IntKind.positiveBits, IntKind.bits, IntKind.unsigned, Ctype.lo, if_true,
    Bool.false_eq_true, if_false] <;> decide

theorem Ctype.lo_le_hi (type : Ctype) : type.lo ≤ type.hi := by
  obtain ⟨-, low, high, -⟩ := type.kind.bounds
  unfold Ctype.lo Ctype.hi
  omega

theorem svalTypeMax_ofType (type : Ctype) : (svalTypeMax type).OfType type := by
  refine ⟨rfl, ?_, ?_⟩
  · rw [svalTypeMax_val]
    exact type.lo_le_hi
  · exact Int.le_of_eq (svalTypeMax_val type)

theorem svalTypeMin_ofType (type : Ctype) : (svalTypeMin type).OfType type := by
  refine ⟨?_, ?_, ?_⟩
  · unfold svalTypeMin
    split <;> rfl
  · exact Int.le_of_eq (svalTypeMin_val type).symm
  · rw [svalTypeMin_val]
    exact type.lo_le_hi

theorem svalIsNegative_iff (sval : Sval) : svalIsNegative sval = true ↔ sval.val < 0 := by
  unfold svalIsNegative Sval.val
  split
  · simp only [Bool.false_eq_true, false_iff]
    omega
  · exact decide_eq_true_iff

theorem svalIsPositive_iff (sval : Sval) : svalIsPositive sval = true ↔ 0 ≤ sval.val := by
  have negative := svalIsNegative_iff sval
  unfold svalIsPositive
  cases found : svalIsNegative sval <;> simp only [found] at negative <;> simp at negative ⊢ <;>
    omega

section

variable {type : Ctype} {sval : Sval} (typed : sval.OfType type)
include typed

theorem svalIsMax_iff :
    svalIsMax sval = true ↔ sval.val = type.hi := by
  obtain ⟨rfl, -, high⟩ := typed
  have top := svalTypeMax_val sval.type
  unfold svalIsMax svalUnsigned
  cases sign : typeUnsigned sval.type
  · rw [@Sval.val_of_signed (svalTypeMax sval.type) sign] at top
    rw [Sval.val_of_signed sign] at high ⊢
    simp only [Bool.false_eq_true, if_false, decide_eq_true_eq]
    omega
  · rw [@Sval.val_of_unsigned (svalTypeMax sval.type) sign] at top
    rw [Sval.val_of_unsigned sign] at high ⊢
    simp only [if_true, decide_eq_true_eq]
    omega

theorem svalIsMin_iff :
    svalIsMin sval = true ↔ sval.val = type.lo := by
  obtain ⟨rfl, low, -⟩ := typed
  have bottom := svalTypeMin_val sval.type
  unfold svalIsMin svalUnsigned
  cases sign : typeUnsigned sval.type
  · rw [Sval.val_of_signed (by rw [(svalTypeMin_ofType sval.type).1]; exact sign)] at bottom
    rw [Sval.val_of_signed sign] at low ⊢
    simp only [Bool.false_eq_true, if_false, decide_eq_true_eq]
    omega
  · have zero : sval.type.lo = 0 := IntKind.lo_of_unsigned sign
    rw [Sval.val_of_unsigned sign, zero]
    simp only [if_true, beq_iff_eq]
    omega

/-- Below the maximum of the type `value++` adds one to the number. -/
theorem addOne_val (below : sval.val < type.hi) : (addOne sval).val = sval.val + 1 := by
  obtain ⟨rfl, low, -⟩ := typed
  have bounds := sval.type.kind.bounds
  have word := sval.uvalue_eq
  have signed := BitVec.toInt_eq_toNat_cond (sval.raw + 1)
  have sum : (sval.raw + 1).toNat = (sval.raw.toNat + 1) % 2 ^ 64 := BitVec.toNat_add _ _
  unfold Ctype.lo at low
  unfold Ctype.hi at below
  unfold Sval.uvalue at word
  unfold addOne
  cases sign : typeUnsigned sval.type with
  | true =>
    rw [@Sval.val_of_unsigned ⟨sval.type, sval.raw + 1⟩ sign]
    change ((sval.raw + 1).toNat : Int) = _
    have zero := IntKind.lo_of_unsigned sign
    omega
  | false =>
    rw [@Sval.val_of_signed ⟨sval.type, sval.raw + 1⟩ sign]
    change (sval.raw + 1).toInt = _
    have top := IntKind.hi_of_signed sign
    split at signed <;> omega

/-- Above the minimum of the type `value--` takes one from the number. -/
theorem subOne_val (above : type.lo < sval.val) : (subOne sval).val = sval.val - 1 := by
  obtain ⟨rfl, -, high⟩ := typed
  have bounds := sval.type.kind.bounds
  have word := sval.uvalue_eq
  have signed := BitVec.toInt_eq_toNat_cond (sval.raw - 1)
  have difference : (sval.raw - 1).toNat = (2 ^ 64 - 1 + sval.raw.toNat) % 2 ^ 64 :=
    BitVec.toNat_sub _ _
  unfold Ctype.lo at above
  unfold Ctype.hi at high
  unfold Sval.uvalue at word
  unfold subOne
  cases sign : typeUnsigned sval.type with
  | true =>
    rw [@Sval.val_of_unsigned ⟨sval.type, sval.raw - 1⟩ sign]
    change ((sval.raw - 1).toNat : Int) = _
    have zero := IntKind.lo_of_unsigned sign
    omega
  | false =>
    rw [@Sval.val_of_signed ⟨sval.type, sval.raw - 1⟩ sign]
    change (sval.raw - 1).toInt = _
    have top := IntKind.hi_of_signed sign
    split at signed <;> omega

theorem addOne_ofType (below : sval.val < type.hi) : (addOne sval).OfType type := by
  have next := addOne_val typed below
  obtain ⟨own, low, -⟩ := typed
  exact ⟨own, by omega, by omega⟩

theorem subOne_ofType (above : type.lo < sval.val) : (subOne sval).OfType type := by
  have previous := subOne_val typed above
  obtain ⟨own, -, high⟩ := typed
  exact ⟨own, by omega, by omega⟩

end

/-- Two values of one type have the same bits exactly when they are the same number. -/
theorem raw_eq_iff {type : Ctype} {one two : Sval} (first : one.OfType type)
    (second : two.OfType type) : one.raw = two.raw ↔ one.val = two.val := by
  constructor
  · intro same
    have equal : one = two := by
      cases one
      cases two
      rw [Sval.mk.injEq]
      exact ⟨first.1.trans second.1.symm, same⟩
    rw [equal]
  · intro same
    rw [Sval.ext_val (first.1.trans second.1.symm) same]

def intCmp (x y : Int) : Int := if x < y then -1 else if x = y then 0 else 1

@[simp] theorem intCmp_lt_zero (x y : Int) : intCmp x y < 0 ↔ x < y := by
  unfold intCmp
  split <;> [skip; split] <;> omega

@[simp] theorem intCmp_le_zero (x y : Int) : intCmp x y ≤ 0 ↔ x ≤ y := by
  unfold intCmp
  split <;> [skip; split] <;> omega

@[simp] theorem intCmp_eq_zero (x y : Int) : intCmp x y = 0 ↔ x = y := by
  unfold intCmp
  split <;> [skip; split] <;> omega

@[simp] theorem intCmp_gt_zero (x y : Int) : intCmp x y > 0 ↔ y < x := by
  unfold intCmp
  split <;> [skip; split] <;> omega

@[simp] theorem intCmp_ge_zero (x y : Int) : intCmp x y ≥ 0 ↔ y ≤ x := by
  unfold intCmp
  split <;> [skip; split] <;> omega

/-- `sval_cmp` compares the two operands converted to one type. -/
theorem svalCmp_eq (one two : Sval) :
    svalCmp one two =
      intCmp ((svalCmpType one two).wrap one.val) ((svalCmpType one two).wrap two.val) := by
  rw [← svalCast_val, ← svalCast_val]
  unfold svalCmp intCmp
  cases sign : typeUnsigned (svalCmpType one two)
  · simp only [sign, Bool.false_eq_true, if_false, Sval.val_of_signed, svalCast_type]
  · simp only [sign, if_true, Sval.val_of_unsigned, svalCast_type, Int.ofNat_lt, Int.ofNat_inj]

/-- On values of one type `sval_cmp` is the comparison of the numbers. -/
theorem svalCmp_ofType {type : Ctype} {one two : Sval}
    (first : one.OfType type) (second : two.OfType type) :
    svalCmp one two = intCmp one.val two.val := by
  have common : svalCmpType one two = if typeBits type < 31 then intCtype else type := by
    simp [svalCmpType, svalPositiveBits, first.1, second.1]
  have keep : ∀ sval : Sval, sval.OfType type → (svalCmpType one two).wrap sval.val = sval.val := by
    intro sval typed
    obtain ⟨-, low, high⟩ := typed
    apply IntKind.wrap_of_mem
    · rw [common]
      revert low high
      obtain ⟨address, kind⟩ := type
      cases kind <;> simp [typeBits, IntKind.bits, Ctype.lo, Ctype.hi, IntKind.lo, IntKind.hi,
        IntKind.unsigned, intCtype] <;> omega
    · rw [common]
      revert low high
      obtain ⟨address, kind⟩ := type
      cases kind <;> simp [typeBits, IntKind.bits, Ctype.lo, Ctype.hi, IntKind.lo, IntKind.hi,
        IntKind.unsigned, intCtype] <;> omega
  rw [svalCmp_eq, keep one first, keep two second]

def IntKind.compared (one two : IntKind) : IntKind :=
  let kind := if two.positiveBits > one.positiveBits then two else one
  if kind.bits < 31 then .s32 else kind

theorem svalCmpType_kind (one two : Sval) :
    (svalCmpType one two).kind = one.type.kind.compared two.type.kind := by
  unfold svalCmpType IntKind.compared svalPositiveBits typePositiveBits typeBits
  by_cases wider : two.type.kind.positiveBits > one.type.kind.positiveBits
  · simp only [wider, if_true]
    split <;> rfl
  · simp only [wider, if_false]
    split <;> rfl

/-- The kind of a comparison holds the values of both kinds, up to sign. -/
theorem IntKind.compared_bounds (one two : IntKind) :
    one.hi ≤ (one.compared two).hi ∧ two.hi ≤ (one.compared two).hi ∧
      (one.unsigned = false → two.unsigned = false →
        (one.compared two).lo ≤ one.lo ∧ (one.compared two).lo ≤ two.lo) := by
  cases one <;> cases two <;> decide

/-- Comparing with the minimum of another type is exact when both are signed, or
when the number is not negative and the other type is unsigned. -/
theorem svalCmp_typeMin {type : Ctype} {sval : Sval} (typed : sval.OfType sval.type)
    (signs : typeUnsigned type = true ∧ 0 ≤ sval.val ∨
      typeUnsigned type = false ∧ typeUnsigned sval.type = false) :
    svalCmp sval (svalTypeMin type) = intCmp sval.val type.lo := by
  obtain ⟨-, low, high⟩ := typed
  have range := type.kind.bounds
  obtain ⟨above, other, below⟩ := sval.type.kind.compared_bounds type.kind
  have zero := (sval.type.kind.compared type.kind).bounds
  have keep : ∀ x : Int, (svalCmpType sval (svalTypeMin type)).kind.lo ≤ x →
      x ≤ (svalCmpType sval (svalTypeMin type)).kind.hi →
      (svalCmpType sval (svalTypeMin type)).wrap x = x :=
    fun x => IntKind.wrap_of_mem
  rw [svalCmp_eq, svalTypeMin_val]
  rw [svalCmpType_kind, (svalTypeMin_ofType type).1] at keep
  unfold Ctype.lo Ctype.hi at *
  rcases signs with ⟨target, nonneg⟩ | ⟨target, origin⟩
  · have least := IntKind.lo_of_unsigned target
    rw [keep _ (by omega) (by omega), keep _ (by omega) (by omega)]
  · obtain ⟨first, second⟩ := below origin target
    rw [keep _ (by omega) (by omega), keep _ (by omega) (by omega)]

theorem svalTooHigh_iff (type : Ctype) (sval : Sval) :
    svalTooHigh type sval = true ↔ type.hi < sval.val := by
  have negative := svalIsNegative_iff sval
  have word := sval.uvalue_eq
  have small := sval.val_bounds.2
  have top := (svalTypeMax type).uvalue_eq
  have bounds := type.kind.bounds
  rw [svalTypeMax_val] at top
  unfold svalTooHigh Ctype.hi at *
  cases sign : svalIsNegative sval <;> simp [sign] at negative ⊢ <;> omega

theorem svalTooLow_iff {source : Ctype} (type : Ctype) {sval : Sval} (typed : sval.OfType source) :
    svalTooLow type sval = true ↔ sval.val < type.lo := by
  obtain rfl := typed.1
  have negative := svalIsNegative_iff sval
  have least := (svalTypeMin type).value_eq
  have signed := sval.value_eq
  have sourceRange := sval.type.kind.bounds
  have targetRange := type.kind.bounds
  have compared := @svalCmp_typeMin type sval typed
  obtain ⟨-, low, high⟩ := typed
  rw [svalTypeMin_val] at least
  unfold svalTooLow typeSigned svalUnsigned
  unfold Ctype.lo Ctype.hi at *
  cases target : typeUnsigned type with
  | true =>
    have zero := IntKind.lo_of_unsigned target
    by_cases below : sval.val < 0
    · rw [negative.mpr below]
      simp only [Bool.and_self, if_true, true_iff]
      omega
    · rw [Bool.eq_false_iff.mpr (fun found => below (negative.mp found)),
        compared (.inl ⟨target, by omega⟩)]
      cases origin : typeUnsigned sval.type with
      | true =>
        simp only [Bool.false_and, Bool.false_eq_true, if_false, Bool.not_true, intCmp_lt_zero,
          decide_eq_true_eq]
      | false =>
        have top := IntKind.hi_of_signed origin
        simp only [Bool.false_and, Bool.false_eq_true, if_false, Bool.not_true, Bool.not_false,
          Bool.true_and, intCmp_lt_zero, decide_eq_true_eq]
        split
        · simp only [true_iff]
          omega
        · exact decide_eq_true_iff
  | false =>
    cases origin : typeUnsigned sval.type with
    | true =>
      have zero := IntKind.lo_of_unsigned origin
      simp only [Bool.and_false, Bool.false_eq_true, if_false, Bool.not_false, Bool.and_self,
        if_true, false_iff]
      omega
    | false =>
      have top := IntKind.hi_of_signed origin
      have floor := IntKind.hi_of_signed target
      rw [compared (.inr ⟨target, origin⟩)]
      simp only [Bool.and_false, Bool.false_eq_true, if_false, Bool.not_false, Bool.true_and,
        intCmp_lt_zero, decide_eq_true_eq]
      split
      · simp only [true_iff]
        omega
      · exact decide_eq_true_iff

/-- `sval_fits` says whether the number is in the range of the type. -/
theorem svalFits_iff {source : Ctype} (type : Ctype) {sval : Sval} (typed : sval.OfType source) :
    svalFits type sval = true ↔ type.lo ≤ sval.val ∧ sval.val ≤ type.hi := by
  have low := svalTooLow_iff type typed
  have high := svalTooHigh_iff type sval
  unfold svalFits
  cases tooLow : svalTooLow type sval <;> cases tooHigh : svalTooHigh type sval <;>
    simp [tooLow, tooHigh] at low high ⊢ <;> omega

end SmatchFormal.Ranges
