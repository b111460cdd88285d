import SmatchFormal.Lib.CArith
import SmatchFormal.RangeMath.BinopValues

/-!
# `sval_binop` and the arithmetic of C

`sval_binop` chooses the type of the result by the number of positive bits and works on the 64
bits of the operands as they are, where C converts them to the common type first.  This gives
what C gives but for types of one width and different rank, for shifts by a wider type, and for
quotients and remainders in `unsigned int` of a negative number.
-/

namespace SmatchFormal.RangeMath

open SmatchFormal.Ranges SmatchFormal.Lib.CArith SmatchFormal.Lib.Quotients

/-! ## Types and operators -/

def symbol : IntType → Ctype
  | .bool => boolCtype
  | .int => intCtype
  | .uint => uintCtype
  | .llong => llongCtype
  | .ullong => ullongCtype
  | .schar => scharCtype
  | .char => ⟨6, .s8⟩
  | .uchar => ⟨7, .u8⟩
  | .short => ⟨8, .s16⟩
  | .ushort => ⟨9, .u16⟩
  | .long => ⟨10, .s64⟩
  | .ulong => ⟨11, .u64⟩

def operator : Binop → Operator
  | .mul => .mul
  | .div => .div
  | .add => .add
  | .sub => .sub
  | .mod => .mod
  | .or => .or
  | .and => .and
  | .rightShift => .shiftRight
  | .leftShift => .shiftLeft
  | .xor => .xor

/-- The pairs of types whose common type is told from another one by its rank only. -/
def RankLost (left right : IntType) : Prop :=
  left = .long ∧ right = .llong ∨ left = .ulong ∧ right = .llong ∨
    left = .llong ∧ right = .ulong ∨ left = .ulong ∧ right = .ullong

instance (left right : IntType) : Decidable (RankLost left right) :=
  inferInstanceAs (Decidable (_ ∨ _))

def BinopAgrees (op : Binop) (left right : IntType) (l r : Int) : Prop :=
  if op = .leftShift ∨ op = .rightShift then
    typePositiveBits (symbol right) ≤ typePositiveBits (symbol left.promote)
  else
    ¬ RankLost left right ∧
      (left.common right = .uint →
        (op = .div → (l < 0 → r ∣ 2 ^ 32 - 1) ∧ (r < 0 → l < 2 ^ 32 + r)) ∧
        (op = .mod → (l < 0 → r ∣ 2 ^ 64 - 2 ^ 32) ∧ (r < 0 → l < 2 ^ 32 + r)))

section Symbols

variable {left right type : IntType}

theorem symbol_lo (type : IntType) : (symbol type).lo = type.lo := by
  cases type <;> decide

theorem symbol_hi (type : IntType) : (symbol type).hi = type.hi := by
  cases type <;> decide

theorem symbol_unsigned (type : IntType) : typeUnsigned (symbol type) = type.unsigned := by
  cases type <;> decide

theorem symbol_wrap (type : IntType) (x : Int) : (symbol type).wrap x = type.convert x := by
  unfold Ctype.wrap IntKind.wrap IntType.convert
  cases type <;> rfl

/-- The promoted type is the common type of C unless a rank is lost. -/
theorem promoted_common_iff (left right : IntType) :
    getPromotedType (symbol left) (symbol right) = symbol (left.common right) ↔
      ¬ RankLost left right := by
  cases left <;> cases right <;> decide

/-- It is the promoted left type unless the right one has more positive bits. -/
theorem promoted_shift_iff (left right : IntType) :
    getPromotedType (symbol left) (symbol right) = symbol left.promote ↔
      typePositiveBits (symbol right) ≤ typePositiveBits (symbol left.promote) := by
  cases left <;> cases right <;> decide

end Symbols

section Values

variable {a b type : IntType} {left right : Sval} {value : Int}

/-- The bit operators are taken on the 64 bits, and the result is converted. -/
theorem svalBinop_bitwise {op : Binop} {bits : Nat → Nat → Nat}
    (unsigned : (svalBinopUnsigned (getPromotedType left.type right.type) left op
      right).raw.toNat = bits left.raw.toNat right.raw.toNat)
    (signed : (svalBinopSigned (getPromotedType left.type right.type) left op
      right).raw.toNat = bits left.raw.toNat right.raw.toNat)
    (promoted : getPromotedType left.type right.type = symbol type) (other : type ≠ .bool)
    (parts : ∀ x y, bits x y % 2 ^ type.width =
      bits (x % 2 ^ type.width) (y % 2 ^ type.width)) :
    (svalBinop left op right).val =
      type.bitwise bits (type.convert left.val) (type.convert right.val) := by
  have small : bits left.raw.toNat right.raw.toNat < 2 ^ 64 := unsigned ▸ BitVec.isLt _
  have word : ((bits left.raw.toNat right.raw.toNat : Nat) : Int) =
      ((bits left.raw.toNat right.raw.toNat : Nat) : Int) % 2 ^ 64 :=
    (Int.emod_eq_of_lt (Int.natCast_nonneg _) (by exact_mod_cast small)).symm
  have raw : ∀ sval : Sval, (sval.val % 2 ^ 64).toNat = sval.raw.toNat := by
    intro sval
    rw [val_emod]
    rfl
  rw [IntType.bitwise_convert other parts type.width_le, raw, raw, ← symbol_wrap, ← promoted]
  refine svalBinop_val_of_bits ?_ ?_
  · rw [unsigned]
    exact word
  · rw [signed]
    exact word

theorem value_of_bounds {sval : Sval} (low : -2 ^ 63 ≤ sval.val) (high : sval.val < 2 ^ 63) :
    sval.value = sval.val := by
  rw [sval.value_eq]
  omega

theorem signed_bounds (sign : type.unsigned = false) : -2 ^ 63 ≤ type.lo ∧ type.hi < 2 ^ 63 := by
  revert sign
  cases type <;> decide

theorem svalBinop_rightShift_signed
    (sign : typeUnsigned (getPromotedType left.type right.type) = false) :
    (svalBinop left .rightShift right).val = (getPromotedType left.type right.type).wrap
      (left.value / 2 ^ right.raw.toNat) := by
  rw [svalBinop_val_signed .rightShift sign]
  simp only [svalBinopSigned, BitVec.toInt_sshiftRight, Int.shiftRight_eq_div_pow]
  push_cast
  rfl

section

variable (sign : type.unsigned = false)
  (promoted : getPromotedType left.type right.type = symbol type)
  (first : type.lo ≤ left.val ∧ left.val ≤ type.hi)
  (second : type.lo ≤ right.val ∧ right.val ≤ type.hi)
include sign promoted first second

/-- The operands of a signed type are divided as they are. -/
theorem svalBinop_div_common (defined : evalCommon .div type left.val right.val = some value) :
    (svalBinop left .div right).val = value := by
  have range := signed_bounds sign
  simp only [evalCommon] at defined
  split_ifs at defined with zero
  have signed : typeUnsigned (getPromotedType left.type right.type) = false := by
    rw [promoted, symbol_unsigned]
    exact sign
  rw [svalBinop_div_signed signed zero, promoted, symbol_wrap,
    value_of_bounds (by omega) (by omega), value_of_bounds (by omega) (by omega)]
  rw [if_neg]
  · exact (IntType.arith_eq_some defined).symm
  · rintro ⟨least, minusOne⟩
    unfold IntType.arith at defined
    rw [least, minusOne, if_neg (by simp [sign])] at defined
    split_ifs at defined with fits
    have high : (-2 ^ 63 : Int).tdiv (-1) = 2 ^ 63 := by decide
    omega

theorem svalBinop_mod_common (defined : evalCommon .mod type left.val right.val = some value) :
    (svalBinop left .mod right).val = value := by
  have range := signed_bounds sign
  have bounds := evalCommon_bounds first.1 first.2 defined
  simp only [evalCommon] at defined
  split_ifs at defined with zero
  obtain ⟨quotient, -, same⟩ := Option.map_eq_some_iff.mp defined
  have signed : typeUnsigned (getPromotedType left.type right.type) = false := by
    rw [promoted, symbol_unsigned]
    exact sign
  rw [svalBinop_mod_signed signed zero, promoted, symbol_wrap,
    value_of_bounds (by omega) (by omega), value_of_bounds (by omega) (by omega), same]
  exact IntType.convert_of_mem bounds.1 bounds.2

end

end Values

section Unsigned

variable {a b type : IntType} {left right : Sval} {value l r : Int}

theorem common_div_unsigned (sign : type.unsigned = true) (other : type ≠ .bool)
    (defined : evalCommon .div type (type.convert l) (type.convert r) = some value) :
    r ≠ 0 ∧ value = l % 2 ^ type.width / (r % 2 ^ type.width) := by
  have low : type.lo = 0 := if_pos sign
  have first := type.convert_bounds l
  have second := type.convert_bounds r
  rw [low] at first second
  obtain ⟨nonzero, quotient⟩ := evalCommon_div_unsigned sign first second.1 defined
  rw [IntType.convert_unsigned sign other, IntType.convert_unsigned sign other] at quotient
  exact ⟨fun zero => nonzero (zero.symm ▸ type.convert_zero), quotient⟩

theorem common_mod_unsigned (sign : type.unsigned = true) (other : type ≠ .bool)
    (defined : evalCommon .mod type (type.convert l) (type.convert r) = some value) :
    r ≠ 0 ∧ value = l % 2 ^ type.width % (r % 2 ^ type.width) := by
  have low : type.lo = 0 := if_pos sign
  have first := type.convert_bounds l
  rw [low] at first
  obtain ⟨nonzero, remainder⟩ := evalCommon_mod_unsigned first.1 defined
  rw [IntType.convert_unsigned sign other, IntType.convert_unsigned sign other] at remainder
  exact ⟨fun zero => nonzero (zero.symm ▸ type.convert_zero), remainder⟩

section

variable (sides : 0 ≤ l ∨ 0 ≤ r) (first : -2 ^ 31 ≤ l ∧ l < 2 ^ 32)
  (second : -2 ^ 31 ≤ r ∧ r < 2 ^ 32) (nonzero : r ≠ 0)
include sides first second nonzero

/-- When the quotient of the 64 bits ends in the quotient of the 32 bits. -/
theorem word_div_iff :
    l % 2 ^ 64 / (r % 2 ^ 64) % 2 ^ 32 = l % 2 ^ 32 / (r % 2 ^ 32) ↔
      (l < 0 → r ∣ 2 ^ 32 - 1) ∧ (r < 0 → l < 2 ^ 32 + r) := by
  rcases lt_or_ge l 0 with negative | nonneg
  · have positive : 0 < r := by omega
    have wide : l % 2 ^ 64 = (2 ^ 32 + l) + 2 ^ 32 * (2 ^ 32 - 1) := by omega
    have narrow : l % 2 ^ 32 = 2 ^ 32 + l := by omega
    have same : r % 2 ^ 64 = r ∧ r % 2 ^ 32 = r := by omega
    rw [wide, narrow, same.1, same.2,
      ediv_add_mul_iff positive second.2 (by omega) (by omega)]
    exact ⟨fun divides => ⟨fun _ => divides, fun below => absurd below (by omega)⟩,
      fun holds => holds.1 negative⟩
  · have whole : l % 2 ^ 64 = l ∧ l % 2 ^ 32 = l := by omega
    rw [whole.1, whole.2]
    rcases lt_or_ge r 0 with below | above
    · have wide : r % 2 ^ 64 = 2 ^ 64 + r := by omega
      have narrow : r % 2 ^ 32 = 2 ^ 32 + r := by omega
      rw [wide, narrow, Int.ediv_eq_zero_of_lt nonneg (by omega)]
      constructor
      · intro zero
        have parts := Int.mul_ediv_add_emod l (2 ^ 32 + r)
        have less := Int.emod_lt_of_pos l (b := 2 ^ 32 + r) (by omega)
        change 0 = l / (2 ^ 32 + r) at zero
        rw [← zero, Int.mul_zero] at parts
        exact ⟨fun negative => absurd negative (by omega), fun _ => by omega⟩
      · intro holds
        exact (Int.ediv_eq_zero_of_lt nonneg (holds.2 below)).symm
    · have same : r % 2 ^ 64 = r ∧ r % 2 ^ 32 = r := by omega
      have between := ediv_between l (d := r) (by omega)
      rw [same.1, same.2, Int.emod_eq_of_lt (by omega) (by omega)]
      exact iff_of_true rfl ⟨fun negative => absurd negative (by omega),
        fun below => absurd below (by omega)⟩

theorem word_mod_iff :
    l % 2 ^ 64 % (r % 2 ^ 64) % 2 ^ 32 = l % 2 ^ 32 % (r % 2 ^ 32) ↔
      (l < 0 → r ∣ 2 ^ 64 - 2 ^ 32) ∧ (r < 0 → l < 2 ^ 32 + r) := by
  rcases lt_or_ge l 0 with negative | nonneg
  · have positive : 0 < r := by omega
    have wide : l % 2 ^ 64 = (2 ^ 32 + l) + (2 ^ 64 - 2 ^ 32) := by omega
    have narrow : l % 2 ^ 32 = 2 ^ 32 + l := by omega
    have same : r % 2 ^ 64 = r ∧ r % 2 ^ 32 = r := by omega
    have low := Int.emod_nonneg ((2 ^ 32 + l) + (2 ^ 64 - 2 ^ 32)) nonzero
    have high := Int.emod_lt_of_pos ((2 ^ 32 + l) + (2 ^ 64 - 2 ^ 32)) positive
    rw [wide, narrow, same.1, same.2, Int.emod_eq_of_lt low (by omega), emod_add_iff]
    exact ⟨fun divides => ⟨fun _ => divides, fun below => absurd below (by omega)⟩,
      fun holds => holds.1 negative⟩
  · have whole : l % 2 ^ 64 = l ∧ l % 2 ^ 32 = l := by omega
    rw [whole.1, whole.2]
    rcases lt_or_ge r 0 with below | above
    · have wide : r % 2 ^ 64 = 2 ^ 64 + r := by omega
      have narrow : r % 2 ^ 32 = 2 ^ 32 + r := by omega
      rw [wide, narrow, Int.emod_eq_of_lt nonneg (by omega), whole.2]
      constructor
      · intro same
        have less := Int.emod_lt_of_pos l (b := 2 ^ 32 + r) (by omega)
        exact ⟨fun negative => absurd negative (by omega), fun _ => by omega⟩
      · intro holds
        exact (Int.emod_eq_of_lt nonneg (holds.2 below)).symm
    · have same : r % 2 ^ 64 = r ∧ r % 2 ^ 32 = r := by omega
      have low := Int.emod_nonneg l nonzero
      have high := Int.emod_lt_of_pos l (b := r) (by omega)
      rw [same.1, same.2, Int.emod_eq_of_lt low (by omega)]
      exact iff_of_true rfl ⟨fun negative => absurd negative (by omega),
        fun below => absurd below (by omega)⟩

end

end Unsigned

section Agreement

variable {op : Binop} {a b type : IntType} {left right : Sval} {value : Int}

/-- A value of one of two types lies in a signed common type. -/
theorem common_bounds (first : left.OfType (symbol a)) (second : right.OfType (symbol b))
    (sign : (a.common b).unsigned = false) :
    ((a.common b).lo ≤ left.val ∧ left.val ≤ (a.common b).hi) ∧
      (a.common b).lo ≤ right.val ∧ right.val ≤ (a.common b).hi := by
  obtain ⟨whole, part⟩ := IntType.common_signed sign
  obtain ⟨-, low, high⟩ := first
  obtain ⟨-, low', high'⟩ := second
  rw [symbol_lo] at low low'
  rw [symbol_hi] at high high'
  omega

/-- Agreement in the common type is a matter of `unsigned int`. -/
theorem agrees_iff {agrees division : Prop} (signed : (a.common b).unsigned = false → agrees)
    (wide : (a.common b).unsigned = true → (a.common b).width = 64 → agrees)
    (narrow : a.common b = .uint → (agrees ↔ division)) :
    agrees ↔ (a.common b = .uint → division) := by
  by_cases same : a.common b = .uint
  · rw [narrow same]
    exact ⟨fun holds _ => holds, fun holds => holds same⟩
  · refine iff_of_true ?_ fun other => absurd other same
    cases sign : (a.common b).unsigned with
    | false => exact signed sign
    | true => exact wide sign ((IntType.common_unsigned sign).resolve_left same)

theorem uint_bounds (first : left.OfType (symbol a)) (second : right.OfType (symbol b))
    (same : a.common b = .uint) : (0 ≤ left.val ∨ 0 ≤ right.val) ∧
      (-2 ^ 31 ≤ left.val ∧ left.val < 2 ^ 32) ∧ -2 ^ 31 ≤ right.val ∧ right.val < 2 ^ 32 := by
  obtain ⟨zero, whole, part⟩ := IntType.common_uint same
  obtain ⟨-, low, high⟩ := first
  obtain ⟨-, low', high'⟩ := second
  rw [symbol_lo] at low low'
  rw [symbol_hi] at high high'
  have least : IntType.int.lo = -2 ^ 31 := by decide
  have most : IntType.uint.hi = 2 ^ 32 - 1 := by decide
  omega

section

variable (first : left.OfType (symbol a)) (second : right.OfType (symbol b))
  (promoted : getPromotedType left.type right.type = symbol (a.common b))
include first second promoted

theorem svalBinop_div_iff
    (defined : evalCommon .div (a.common b) ((a.common b).convert left.val)
      ((a.common b).convert right.val) = some value) :
    (svalBinop left .div right).val = value ↔ (a.common b = .uint →
      (left.val < 0 → right.val ∣ 2 ^ 32 - 1) ∧
        (right.val < 0 → left.val < 2 ^ 32 + right.val)) := by
  have other := IntType.common_ne_bool a b
  have unsigned : (a.common b).unsigned = true →
      typeUnsigned (getPromotedType left.type right.type) = true := by
    intro sign
    rw [promoted, symbol_unsigned]
    exact sign
  refine agrees_iff (fun sign => ?_) (fun sign wide => ?_) (fun same => ?_)
  · obtain ⟨whole, part⟩ := common_bounds first second sign
    rw [IntType.convert_of_mem whole.1 whole.2, IntType.convert_of_mem part.1 part.2] at defined
    exact svalBinop_div_common sign promoted whole part defined
  · obtain ⟨nonzero, same⟩ := common_div_unsigned sign other defined
    have bounds := evalCommon_bounds (IntType.convert_bounds _ left.val).1
      (IntType.convert_bounds _ left.val).2 defined
    rw [svalBinop_div_unsigned (unsigned sign) nonzero, promoted, symbol_wrap, same, wide]
    rw [same, wide] at bounds
    exact IntType.convert_of_mem bounds.1 bounds.2
  · have sign : (a.common b).unsigned = true := same.symm ▸ rfl
    obtain ⟨sides, whole, part⟩ := uint_bounds first second same
    obtain ⟨nonzero, quotient⟩ := common_div_unsigned sign other defined
    rw [svalBinop_div_unsigned (unsigned sign) nonzero, promoted, symbol_wrap, quotient,
      IntType.convert_unsigned sign other, same]
    exact word_div_iff sides whole part nonzero

theorem svalBinop_mod_iff
    (defined : evalCommon .mod (a.common b) ((a.common b).convert left.val)
      ((a.common b).convert right.val) = some value) :
    (svalBinop left .mod right).val = value ↔ (a.common b = .uint →
      (left.val < 0 → right.val ∣ 2 ^ 64 - 2 ^ 32) ∧
        (right.val < 0 → left.val < 2 ^ 32 + right.val)) := by
  have other := IntType.common_ne_bool a b
  have unsigned : (a.common b).unsigned = true →
      typeUnsigned (getPromotedType left.type right.type) = true := by
    intro sign
    rw [promoted, symbol_unsigned]
    exact sign
  refine agrees_iff (fun sign => ?_) (fun sign wide => ?_) (fun same => ?_)
  · obtain ⟨whole, part⟩ := common_bounds first second sign
    rw [IntType.convert_of_mem whole.1 whole.2, IntType.convert_of_mem part.1 part.2] at defined
    exact svalBinop_mod_common sign promoted whole part defined
  · obtain ⟨nonzero, same⟩ := common_mod_unsigned sign other defined
    have bounds := evalCommon_bounds (IntType.convert_bounds _ left.val).1
      (IntType.convert_bounds _ left.val).2 defined
    rw [svalBinop_mod_unsigned (unsigned sign) nonzero, promoted, symbol_wrap, same, wide]
    rw [same, wide] at bounds
    exact IntType.convert_of_mem bounds.1 bounds.2
  · have sign : (a.common b).unsigned = true := same.symm ▸ rfl
    obtain ⟨sides, whole, part⟩ := uint_bounds first second same
    obtain ⟨nonzero, remainder⟩ := common_mod_unsigned sign other defined
    rw [svalBinop_mod_unsigned (unsigned sign) nonzero, promoted, symbol_wrap, remainder,
      IntType.convert_unsigned sign other, same]
    exact word_mod_iff sides whole part nonzero

theorem svalBinop_common_iff
    (defined : evalCommon (operator op) (a.common b) ((a.common b).convert left.val)
      ((a.common b).convert right.val) = some value) :
    (svalBinop left op right).val = value ↔ (a.common b = .uint →
      (op = .div → (left.val < 0 → right.val ∣ 2 ^ 32 - 1) ∧
        (right.val < 0 → left.val < 2 ^ 32 + right.val)) ∧
      (op = .mod → (left.val < 0 → right.val ∣ 2 ^ 64 - 2 ^ 32) ∧
        (right.val < 0 → left.val < 2 ^ 32 + right.val))) := by
  have other := IntType.common_ne_bool a b
  cases op with
  | add =>
    have result := svalBinop_add_val left right
    rw [promoted, symbol_wrap] at result
    rw [result, IntType.arith_eq_some defined, IntType.convert_add other]
    simp
  | sub =>
    have result := svalBinop_sub_val left right
    rw [promoted, symbol_wrap] at result
    rw [result, IntType.arith_eq_some defined, IntType.convert_sub other]
    simp
  | mul =>
    have result := svalBinop_mul_val left right
    rw [promoted, symbol_wrap] at result
    rw [result, IntType.arith_eq_some defined, IntType.convert_mul other]
    simp
  | div =>
    rw [svalBinop_div_iff first second promoted defined]
    simp
  | mod =>
    rw [svalBinop_mod_iff first second promoted defined]
    simp
  | and =>
    rw [← Option.some.inj defined]
    have result := @svalBinop_bitwise _ left right .and Nat.land (BitVec.toNat_and ..)
      (BitVec.toNat_and ..) promoted other fun _ _ => Nat.and_mod_two_pow
    exact iff_of_true result (by simp)
  | xor =>
    rw [← Option.some.inj defined]
    have result := @svalBinop_bitwise _ left right .xor Nat.xor (BitVec.toNat_xor ..)
      (BitVec.toNat_xor ..) promoted other fun _ _ => Nat.xor_mod_two_pow
    exact iff_of_true result (by simp)
  | or =>
    rw [← Option.some.inj defined]
    have result := @svalBinop_bitwise _ left right .or Nat.lor (BitVec.toNat_or ..)
      (BitVec.toNat_or ..) promoted other fun _ _ => Nat.or_mod_two_pow
    exact iff_of_true result (by simp)
  | rightShift | leftShift => cases defined

end

theorem svalBinop_shift (first : left.OfType (symbol a))
    (promoted : getPromotedType left.type right.type = symbol a.promote)
    (shift : op = .leftShift ∨ op = .rightShift)
    (defined : evalShift (operator op) a.promote (a.promote.convert left.val) right.val =
      some value) :
    (svalBinop left op right).val = value := by
  have low : a.lo ≤ left.val := symbol_lo a ▸ first.2.1
  have high : left.val ≤ a.hi := symbol_hi a ▸ first.2.2
  have bounds := evalShift_bounds (IntType.convert_bounds _ left.val).1
    (IntType.convert_bounds _ left.val).2 defined
  rw [IntType.convert_promote low high] at defined
  unfold evalShift at defined
  split_ifs at defined with count direction nonneg
  · obtain rfl : op = .rightShift := by
      rcases shift with rfl | rfl
      · cases direction
      · rfl
    have bits := raw_toNat_eq count.1
    obtain rfl := Option.some.inj defined
    cases sign : a.promote.unsigned with
    | true =>
      have nonneg : 0 ≤ left.val := by
        have zero : a.promote.lo = 0 := if_pos sign
        have kept := IntType.convert_bounds a.promote left.val
        rw [IntType.convert_promote low high] at kept
        omega
      have unsigned : typeUnsigned (getPromotedType left.type right.type) = true := by
        rw [promoted, symbol_unsigned]
        exact sign
      rw [svalBinop_rightShift_val nonneg (Or.inr unsigned), promoted, symbol_wrap, bits]
      exact IntType.convert_of_mem bounds.1 bounds.2
    | false =>
      have signed : typeUnsigned (getPromotedType left.type right.type) = false := by
        rw [promoted, symbol_unsigned]
        exact sign
      have kept := IntType.convert_bounds a.promote left.val
      rw [IntType.convert_promote low high] at kept
      have range := signed_bounds sign
      rw [svalBinop_rightShift_signed signed, promoted, symbol_wrap, bits,
        value_of_bounds (by omega) (by omega)]
      exact IntType.convert_of_mem bounds.1 bounds.2
  · obtain rfl : op = .leftShift := by
      rcases shift with rfl | rfl
      · rfl
      · exact absurd rfl direction
    rw [svalBinop_leftShift_val, promoted, symbol_wrap, raw_toNat_eq count.1,
      ← IntType.arith_eq_some defined]

/-- `sval_binop` has the type and the value of the C expression exactly when no rank is lost, no
shift is by a wider type, and the 64 bits of the operands give the quotient of the 32. -/
theorem svalBinop_eq_iff (first : left.OfType (symbol a)) (second : right.OfType (symbol b))
    (defined : eval (operator op) a b left.val right.val = some (type, value)) :
    svalBinop left op right = (symbol type).ofInt value ↔
      BinopAgrees op a b left.val right.val := by
  have bounds := eval_bounds defined
  rw [← symbol_lo, ← symbol_hi] at bounds
  have typed : (svalBinop left op right).type = getPromotedType (symbol a) (symbol b) := by
    rw [← first.1, ← second.1]
    exact (svalBinop_ofType left op right).1
  -- with the type of C only the numbers are left to compare
  have values : getPromotedType (symbol a) (symbol b) = symbol type →
      (svalBinop left op right = (symbol type).ofInt value ↔
        (svalBinop left op right).val = value) := by
    intro same
    have exact := Ctype.ofInt_val bounds.1 bounds.2
    constructor
    · intro equal
      rw [equal, exact]
    · intro equal
      exact Sval.ext_val (typed.trans same) (equal.trans exact.symm)
  have lost : getPromotedType (symbol a) (symbol b) ≠ symbol type →
      svalBinop left op right ≠ (symbol type).ofInt value := by
    intro other equal
    rw [equal] at typed
    exact other typed.symm
  unfold eval at defined
  unfold BinopAgrees
  by_cases shift : op = .leftShift ∨ op = .rightShift
  · have shifts : operator op = .shiftLeft ∨ operator op = .shiftRight := by
      rcases shift with rfl | rfl
      · exact Or.inl rfl
      · exact Or.inr rfl
    rw [if_pos shifts] at defined
    obtain ⟨result, defined, same⟩ := Option.map_eq_some_iff.mp defined
    cases same
    rw [if_pos shift, ← promoted_shift_iff]
    by_cases same : getPromotedType (symbol a) (symbol b) = symbol a.promote
    · have promoted : getPromotedType left.type right.type = symbol a.promote := by
        rw [first.1, second.1]
        exact same
      exact iff_of_true ((values same).mpr (svalBinop_shift first promoted shift defined)) same
    · exact iff_of_false (lost same) same
  · have others : ¬ (operator op = .shiftLeft ∨ operator op = .shiftRight) := by
      intro shifts
      cases op with
      | leftShift => exact shift (Or.inl rfl)
      | rightShift => exact shift (Or.inr rfl)
      | _ => rcases shifts with same | same <;> cases same
    rw [if_neg others] at defined
    obtain ⟨result, defined, same⟩ := Option.map_eq_some_iff.mp defined
    cases same
    rw [if_neg shift, ← promoted_common_iff]
    by_cases same : getPromotedType (symbol a) (symbol b) = symbol (a.common b)
    · have promoted : getPromotedType left.type right.type = symbol (a.common b) := by
        rw [first.1, second.1]
        exact same
      rw [values same, svalBinop_common_iff first second promoted defined]
      exact ⟨fun holds => ⟨same, holds⟩, fun holds => holds.2⟩
    · exact iff_of_false (lost same) fun holds => same holds.1

/-- The theorem for `-1 % 16u`. -/
theorem svalBinop_minusOne_mod :
    svalBinop (intCtype.ofInt (-1)) .mod (uintCtype.ofInt 16) = uintCtype.ofInt 15 ↔
      BinopAgrees .mod .int .uint (intCtype.ofInt (-1)).val (uintCtype.ofInt 16).val :=
  @svalBinop_eq_iff .mod .int .uint .uint (intCtype.ofInt (-1)) (uintCtype.ofInt 16) 15
    (by decide) (by decide) (by decide)

/-- `-1 / 2u` is `2147483647`, a sum of `long` and `long long` is a `long long`, and an `int`
shifted by a `long` is an `int`. -/
theorem svalBinop_differs :
    (eval .div .int .uint (-1) 2 = some (.uint, 2147483647) ∧
      svalBinop (intCtype.ofInt (-1)) .div (uintCtype.ofInt 2) = uintCtype.ofInt 4294967295) ∧
    (eval .add .long .llong 1 1 = some (.llong, 2) ∧
      svalBinop ((symbol .long).ofInt 1) .add (llongCtype.ofInt 1) = (symbol .long).ofInt 2) ∧
    eval .shiftLeft .int .long 1 3 = some (.int, 8) ∧
      svalBinop (intCtype.ofInt 1) .leftShift ((symbol .long).ofInt 3) =
        (symbol .long).ofInt 8 := by
  decide

end Agreement

end SmatchFormal.RangeMath
