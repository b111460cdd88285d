import SmatchFormal.RangeMath.BitMask

/-!
# The numbers behind `sval_binop`

`sval_binop` works on 64 bits and truncates at the end.  The operators that commute with
truncation give the mathematical result converted to the promoted type, whatever the types;
division and right shifts do so for operands of one type.
-/

namespace SmatchFormal.RangeMath

open SmatchFormal.Ranges SmatchFormal.Extra

/-- `__builtin_*_overflow` on two numbers converted to the kind. -/
def typeOverflow (kind : IntKind) (exact : Int → Int → Int) (a b : Int) : Bool :=
  let result := exact (kind.wrap a) (kind.wrap b)
  !decide (kind.lo ≤ result ∧ result ≤ kind.hi)

/-- The operator of the macro `type_overflow`; the other operators return early. -/
def overflowOp : Binop → Option (Int → Int → Int)
  | .mul => some fun a b => a * b
  | .add => some fun a b => a + b
  | .sub => some fun a b => a - b
  | _ => none

/-- `sval_binop_overflows`.  The type is `int` or has more positive bits than `int`, so the
last `return false` is not reached. -/
def svalBinopOverflows (left : Sval) (op : Binop) (right : Sval) : Bool :=
  let type := getPromotedType left.type right.type
  match op with
  | .leftShift => decide (svalCmp left (svalBinop (svalTypeMax type) .rightShift right) > 0)
  | op =>
    match overflowOp op with
    | none => false
    | some exact => typeOverflow type.kind exact left.value right.value

section Promoted

variable {type source : Ctype} {left right : Sval}

theorem promoted_kind (rank : IntRank type) : (getPromotedType type type).kind = type.kind := by
  obtain ⟨address, kind⟩ := type
  revert rank
  cases kind <;> simp [IntRank, typeBits, getPromotedType, typePositiveBits, IntKind.positiveBits,
    IntKind.bits, IntKind.unsigned, intCtype]

theorem promoted_lo (rank : IntRank type) : (getPromotedType type type).lo = type.lo := by
  unfold Ctype.lo
  rw [promoted_kind rank]

theorem promoted_hi (rank : IntRank type) : (getPromotedType type type).hi = type.hi := by
  unfold Ctype.hi
  rw [promoted_kind rank]

theorem promoted_unsigned (rank : IntRank type) :
    typeUnsigned (getPromotedType type type) = typeUnsigned type := by
  unfold typeUnsigned
  rw [promoted_kind rank]

theorem rank_ne_bool (rank : IntRank type) : type.kind ≠ .bool := by
  intro same
  unfold IntRank typeBits at rank
  rw [same] at rank
  exact absurd rank (by decide)

/-- An unsigned type gives way only to a wider type. -/
theorem promoted_of_unsigned (unsigned : typeUnsigned type = true) (rank : IntRank type)
    (source : Ctype) :
    typeBits source ≤ typeBits type ∧ getPromotedType type source = type ∨
      typeBits type = 32 ∧ typeBits source = 64 ∧ getPromotedType type source = source := by
  obtain ⟨address, kind⟩ := type
  obtain ⟨address', kind'⟩ := source
  revert unsigned rank
  cases kind <;> cases kind' <;>
    simp [IntRank, typeBits, typeUnsigned, getPromotedType, typePositiveBits,
      IntKind.positiveBits, IntKind.bits, IntKind.unsigned, intCtype]

theorem hi_of_bits (wide : typeBits type = 64) : 2 ^ 63 - 1 ≤ type.hi ∧ type.lo ≤ 0 := by
  obtain ⟨address, kind⟩ := type
  revert wide
  cases kind <;> simp [typeBits, IntKind.bits, Ctype.hi, IntKind.hi, Ctype.lo, IntKind.lo,
    IntKind.unsigned]

theorem svalBinop_ofType (left : Sval) (op : Binop) (right : Sval) :
    (svalBinop left op right).OfType (getPromotedType left.type right.type) := by
  unfold svalBinop
  exact svalCast_ofType _ _

/-- A result with the right 64 bits is the conversion of the exact result. -/
theorem svalBinop_val_of_bits {op : Binop} {x : Int}
    (unsigned : ((svalBinopUnsigned (getPromotedType left.type right.type) left op right).raw.toNat
      : Int) = x % 2 ^ 64)
    (signed : ((svalBinopSigned (getPromotedType left.type right.type) left op right).raw.toNat
      : Int) = x % 2 ^ 64) :
    (svalBinop left op right).val = (getPromotedType left.type right.type).wrap x := by
  unfold svalBinop
  rw [svalCast_val]
  refine wrap_congr (getPromotedType_ne_bool left.type right.type) ?_
  rw [val_emod]
  by_cases sign : typeUnsigned (getPromotedType left.type right.type) = true
  · rw [if_pos sign]
    exact unsigned
  · rw [if_neg sign]
    exact signed

theorem svalBinop_mul_val (left right : Sval) :
    (svalBinop left .mul right).val =
      (getPromotedType left.type right.type).wrap (left.val * right.val) := by
  have bits : ((left.raw * right.raw).toNat : Int) = (left.val * right.val) % 2 ^ 64 := by
    rw [BitVec.toNat_mul, Int.mul_emod, val_emod, val_emod]
    exact Int.natCast_emod _ _
  exact svalBinop_val_of_bits bits bits

theorem svalBinop_sub_val (left right : Sval) :
    (svalBinop left .sub right).val =
      (getPromotedType left.type right.type).wrap (left.val - right.val) := by
  have bits : ((left.raw - right.raw).toNat : Int) = (left.val - right.val) % 2 ^ 64 := by
    have first := val_emod left
    have second := val_emod right
    have small := right.raw.isLt
    rw [BitVec.toNat_sub]
    omega
  exact svalBinop_val_of_bits bits bits

theorem svalBinop_leftShift_val (left right : Sval) :
    (svalBinop left .leftShift right).val =
      (getPromotedType left.type right.type).wrap (left.val * 2 ^ right.raw.toNat) := by
  have bits : ((left.raw <<< right.raw.toNat).toNat : Int) =
      (left.val * 2 ^ right.raw.toNat) % 2 ^ 64 := by
    rw [BitVec.toNat_shiftLeft, Nat.shiftLeft_eq, Int.mul_emod, val_emod]
    push_cast
    rw [Int.mul_emod, Int.emod_eq_of_lt (Int.natCast_nonneg left.raw.toNat)
      (by exact_mod_cast left.raw.isLt)]
  exact svalBinop_val_of_bits bits bits

/-- The operators on bits, for values that are not negative. -/
theorem svalBinop_and_val (nonnegLeft : 0 ≤ left.val) (nonnegRight : 0 ≤ right.val) :
    (svalBinop left .and right).val =
      (getPromotedType left.type right.type).wrap
        ((left.val.toNat &&& right.val.toNat : Nat) : Int) := by
  have bits : ((left.raw &&& right.raw).toNat : Int) =
      ((left.val.toNat &&& right.val.toNat : Nat) : Int) % 2 ^ 64 := by
    have small := (left.raw &&& right.raw).isLt
    rw [BitVec.toNat_and, raw_toNat_eq nonnegLeft, raw_toNat_eq nonnegRight] at small ⊢
    exact (Int.emod_eq_of_lt (Int.natCast_nonneg _) (by exact_mod_cast small)).symm
  exact svalBinop_val_of_bits bits bits

/-- A right shift of a value that is not negative. -/
theorem svalBinop_rightShift_val (nonneg : 0 ≤ left.val) (fits : left.val < 2 ^ 63 ∨
      typeUnsigned (getPromotedType left.type right.type) = true) :
    (svalBinop left .rightShift right).val =
      (getPromotedType left.type right.type).wrap (left.val / 2 ^ right.raw.toNat) := by
  have word := raw_toNat nonneg
  have positive := Nat.two_pow_pos right.raw.toNat
  have less : left.val / 2 ^ right.raw.toNat ≤ left.val :=
    Int.ediv_le_self _ nonneg
  have low : 0 ≤ left.val / 2 ^ right.raw.toNat := Int.ediv_nonneg nonneg (by positivity)
  have bound := left.val_bounds
  have logical : ((left.raw >>> right.raw.toNat).toNat : Int) =
      (left.val / 2 ^ right.raw.toNat) % 2 ^ 64 := by
    rw [BitVec.toNat_ushiftRight, Nat.shiftRight_eq_div_pow, Int.emod_eq_of_lt low (by omega),
      ← word]
    push_cast
    rfl
  unfold svalBinop
  rw [svalCast_val]
  refine wrap_congr (getPromotedType_ne_bool left.type right.type) ?_
  rw [val_emod]
  by_cases sign : typeUnsigned (getPromotedType left.type right.type) = true
  · rw [if_pos sign]
    exact logical
  · have small : left.val < 2 ^ 63 := fits.resolve_right sign
    have clear : left.raw.msb = false := by
      rw [BitVec.msb_eq_false_iff_two_mul_lt]
      omega
    rw [if_neg sign]
    change ((left.raw.sshiftRight right.raw.toNat).toNat : Int) = _
    rw [BitVec.sshiftRight_eq_of_msb_false clear]
    exact logical

theorem svalBinop_val_unsigned (op : Binop)
    (sign : typeUnsigned (getPromotedType left.type right.type) = true) :
    (svalBinop left op right).val = (getPromotedType left.type right.type).wrap
      ((svalBinopUnsigned (getPromotedType left.type right.type) left op right).raw.toNat :
        Int) := by
  unfold svalBinop
  rw [svalCast_val]
  refine wrap_congr (getPromotedType_ne_bool left.type right.type) ?_
  rw [val_emod, if_pos sign]
  exact (Int.emod_eq_of_lt (Int.natCast_nonneg _) (by exact_mod_cast BitVec.isLt _)).symm

theorem svalBinop_val_signed (op : Binop)
    (sign : typeUnsigned (getPromotedType left.type right.type) = false) :
    (svalBinop left op right).val = (getPromotedType left.type right.type).wrap
      (svalBinopSigned (getPromotedType left.type right.type) left op right).raw.toInt := by
  unfold svalBinop
  rw [svalCast_val]
  refine wrap_congr (getPromotedType_ne_bool left.type right.type) ?_
  rw [val_emod, if_neg (Bool.not_eq_true _ |>.mpr sign), BitVec.toInt_eq_toNat_cond]
  have small := (svalBinopSigned (getPromotedType left.type right.type) left op right).raw.isLt
  split_ifs <;> omega

theorem svalBinop_div_unsigned (sign : typeUnsigned (getPromotedType left.type right.type) = true)
    (nonzero : right.val ≠ 0) :
    (svalBinop left .div right).val = (getPromotedType left.type right.type).wrap
      (left.val % 2 ^ 64 / (right.val % 2 ^ 64)) := by
  have divisor : right.raw ≠ 0 := fun zero => nonzero (right.raw_eq_zero_iff.mp zero)
  rw [svalBinop_val_unsigned .div sign, val_emod, val_emod]
  simp only [svalBinopUnsigned, if_neg divisor, BitVec.toNat_udiv]
  rfl

theorem svalBinop_mod_unsigned (sign : typeUnsigned (getPromotedType left.type right.type) = true)
    (nonzero : right.val ≠ 0) :
    (svalBinop left .mod right).val = (getPromotedType left.type right.type).wrap
      (left.val % 2 ^ 64 % (right.val % 2 ^ 64)) := by
  have divisor : right.raw ≠ 0 := fun zero => nonzero (right.raw_eq_zero_iff.mp zero)
  rw [svalBinop_val_unsigned .mod sign, val_emod, val_emod]
  simp only [svalBinopUnsigned, if_neg divisor, BitVec.toNat_umod]
  rfl

/-- A signed quotient; the one that overflows has a value of its own. -/
theorem svalBinop_div_signed (sign : typeUnsigned (getPromotedType left.type right.type) = false)
    (nonzero : right.val ≠ 0) :
    (svalBinop left .div right).val = (getPromotedType left.type right.type).wrap
      (if left.value = -2 ^ 63 ∧ right.value = -1 then 12345678
        else left.value.tdiv right.value) := by
  have divisor : right.raw ≠ 0 := fun zero => nonzero (right.raw_eq_zero_iff.mp zero)
  have least : left.raw = BitVec.intMin 64 ↔ left.value = -2 ^ 63 := by
    rw [← BitVec.toInt_inj]
    exact Iff.rfl
  have minusOne : right.raw = -1 ↔ right.value = -1 := by
    rw [← BitVec.toInt_inj]
    exact Iff.rfl
  rw [svalBinop_val_signed .div sign]
  simp only [svalBinopSigned, if_neg divisor, least, minusOne]
  split_ifs with special
  · rfl
  · have fits : left.raw ≠ BitVec.intMin 64 ∨ right.raw ≠ -1#64 := by
      rw [← not_and_or]
      exact fun same => special ⟨least.mp same.1, minusOne.mp same.2⟩
    rw [BitVec.toInt_sdiv_of_ne_or_ne _ _ fits]
    rfl

theorem svalBinop_mod_signed (sign : typeUnsigned (getPromotedType left.type right.type) = false)
    (nonzero : right.val ≠ 0) :
    (svalBinop left .mod right).val = (getPromotedType left.type right.type).wrap
      (left.value.tmod right.value) := by
  have divisor : right.raw ≠ 0 := fun zero => nonzero (right.raw_eq_zero_iff.mp zero)
  rw [svalBinop_val_signed .mod sign]
  simp only [svalBinopSigned, if_neg divisor, BitVec.toInt_srem]
  rfl

end Promoted

section Overflow

variable {type : Ctype} {left right : Sval}

theorem wrap_value (rank : IntRank type) (typed : left.OfType type) :
    type.wrap left.value = left.val := by
  have keep : type.wrap left.val = left.val := IntKind.wrap_of_mem typed.2.1 typed.2.2
  rw [← keep]
  refine wrap_congr (rank_ne_bool rank) ?_
  rw [left.value_eq]
  omega

section

variable {op : Binop} {exact : Int → Int → Int} (found : overflowOp op = some exact)
  (rank : IntRank type) (first : left.OfType type) (second : right.OfType type)
include found rank first second

/-- The test is exact at the width of the type. -/
theorem svalBinopOverflows_iff :
    svalBinopOverflows left op right = true ↔
      ¬ (type.lo ≤ exact left.val right.val ∧ exact left.val right.val ≤ type.hi) := by
  have kinds := promoted_kind rank
  have test : svalBinopOverflows left op right =
      typeOverflow (getPromotedType type type).kind exact left.value right.value := by
    unfold svalBinopOverflows
    rw [first.1, second.1]
    cases op <;> cases found <;> rfl
  have wrapLeft : type.kind.wrap left.value = left.val := wrap_value rank first
  have wrapRight : type.kind.wrap right.value = right.val := wrap_value rank second
  rw [test, kinds]
  unfold typeOverflow
  dsimp only
  rw [wrapLeft, wrapRight, Bool.not_eq_true', decide_eq_false_iff_not]
  exact Iff.rfl

/-- An operation that does not overflow gives the exact value. -/
theorem svalBinop_exact (fits : svalBinopOverflows left op right = false) :
    (svalBinop left op right).OfType (getPromotedType type type) ∧
      (svalBinop left op right).val = exact left.val right.val := by
  have typed := svalBinop_ofType left op right
  have value : (svalBinop left op right).val =
      (getPromotedType left.type right.type).wrap (exact left.val right.val) := by
    cases op with
    | add =>
      obtain rfl := Option.some.inj found
      exact svalBinop_add_val left right
    | mul =>
      obtain rfl := Option.some.inj found
      exact svalBinop_mul_val left right
    | sub =>
      obtain rfl := Option.some.inj found
      exact svalBinop_sub_val left right
    | _ => cases found
  have inside := (svalBinopOverflows_iff found rank first second).not.mp (by simp [fits])
  rw [not_not] at inside
  rw [first.1, second.1] at typed value
  refine ⟨typed, value.trans (IntKind.wrap_of_mem ?_ ?_)⟩
  · rw [promoted_kind rank]
    exact inside.1
  · rw [promoted_kind rank]
    exact inside.2

end

end Overflow

end SmatchFormal.RangeMath
