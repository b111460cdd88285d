import SmatchFormal.Ir.Compare

/-!
# Comparisons as statements about numbers

A constant of width `w` is a number below `2 * half`, where `half` is the sign bit.  A
signed comparison reads the numbers from `half` on as negative.  The rules of both
switches of `simplify_compare_constant` are equivalences between such statements.
-/

namespace SmatchFormal.Ir

def signedNumber (half a : Nat) : Int := if a < half then a else (a : Int) - 2 * half

def Opcode.Holds (half a b : Nat) : Opcode → Prop
  | .setEq => a = b
  | .setNe => a ≠ b
  | .setLt => signedNumber half a < signedNumber half b
  | .setLe => signedNumber half a ≤ signedNumber half b
  | .setGe => signedNumber half a ≥ signedNumber half b
  | .setGt => signedNumber half a > signedNumber half b
  | .setB => a < b
  | .setBe => a ≤ b
  | .setAe => a ≥ b
  | .setA => a > b
  | _ => False

section Constants

variable {size : Nat} {value : BitVec 64}

theorem half_pos (size : Nat) : 0 < 2 ^ (size - 1) := Nat.two_pow_pos _

theorem half_le (le : size ≤ 64) : 2 ^ (size - 1) ≤ 2 ^ 63 :=
  Nat.pow_le_pow_right (by decide) (by omega)

section

variable (pos : 0 < size) (le : size ≤ 64)
include pos le

theorem eq_signBit_iff :
    value = signBit size ↔ value.toNat = 2 ^ (size - 1) := by
  rw [← BitVec.toNat_inj, toNat_signBit pos le]

theorem eq_signMask_iff :
    value = signMask size ↔ value.toNat + 1 = 2 ^ (size - 1) := by
  have positive := half_pos size
  rw [← BitVec.toNat_inj, toNat_signMask pos le]
  omega

theorem eq_signBit_succ_iff :
    value = signBit size + 1 ↔ value.toNat = 2 ^ (size - 1) + 1 := by
  have bound := half_le le
  have number := toNat_signBit pos le
  rw [← BitVec.toNat_inj, BitVec.toNat_add_of_lt, number]
  · rfl
  · rw [number]
    exact Nat.lt_of_le_of_lt (Nat.add_le_add_right bound 1) (by decide)

/-- The mask without its last value; a single bit has none. -/
theorem eq_signMask_pred_iff (small : value.toNat < 2 ^ size) :
    value = signMask size - 1 ↔ value.toNat + 2 = 2 ^ (size - 1) := by
  have positive := half_pos size
  have bound := half_le le
  have double := two_pow_pred pos
  have number := toNat_signMask pos le
  rw [← BitVec.toNat_inj, BitVec.toNat_sub, number]
  change value.toNat = (2 ^ 64 - 1 + _) % 2 ^ 64 ↔ _
  omega

theorem and_signBit_eq_zero_iff (small : value.toNat < 2 ^ size) :
    value &&& signBit size = 0 ↔ value.toNat < 2 ^ (size - 1) := by
  have fits : value = (value.setWidth size).setWidth 64 := by
    apply BitVec.eq_of_toNat_eq
    rw [toNat_setWidth_of_le le, BitVec.toNat_setWidth, Nat.mod_eq_of_lt small]
  have sign := and_signBit_ne_zero pos le (value.setWidth size)
  rw [← fits, BitVec.msb_eq_decide, decide_eq_true_eq, BitVec.toNat_setWidth,
    Nat.mod_eq_of_lt small] at sign
  rw [← not_iff_not, not_lt]
  exact sign

theorem eq_bitsMask_iff :
    value = bitsMask size ↔ value.toNat + 1 = 2 ^ size := by
  have positive := Nat.two_pow_pos size
  rw [← BitVec.toNat_inj, toNat_bitsMask pos le]
  omega

theorem eq_bitsMask_pred_iff :
    value = bitsMask size - 1 ↔ value.toNat + 2 = 2 ^ size := by
  have double := two_pow_pred pos
  have positive := half_pos size
  have number := toNat_bitsMask pos le
  rw [← BitVec.toNat_inj, BitVec.toNat_sub_of_le, number]
  · change value.toNat = _ - 1 ↔ _
    omega
  · rw [BitVec.le_def, number]
    change 1 ≤ _
    omega

theorem eq_bitsMask_half_iff :
    value = bitsMask size >>> 1 ↔ value.toNat + 1 = 2 ^ (size - 1) := by
  have double := two_pow_pred pos
  have positive := half_pos size
  rw [← BitVec.toNat_inj, BitVec.toNat_ushiftRight, toNat_bitsMask pos le, Nat.shiftRight_one]
  omega

theorem toNat_pred_and_bitsMask (small : value.toNat < 2 ^ size) (nonzero : value ≠ 0) :
    ((value - 1) &&& bitsMask size).toNat = value.toNat - 1 := by
  have positive : 0 < value.toNat := by
    refine Nat.pos_of_ne_zero fun zero => nonzero ?_
    exact BitVec.eq_of_toNat_eq zero
  rw [toNat_and_bitsMask pos le, BitVec.toNat_sub_of_le (by rw [BitVec.le_def]; exact positive)]
  exact Nat.mod_eq_of_lt (by omega)

theorem toNat_succ_and_bitsMask :
    ((value + 1) &&& bitsMask size).toNat = (value.toNat + 1) % 2 ^ size := by
  rw [toNat_and_bitsMask pos le, BitVec.toNat_add]
  exact Nat.mod_mod_of_dvd _ (Nat.pow_dvd_pow 2 le)

end

theorem eq_zero_iff_toNat : value = 0 ↔ value.toNat = 0 := by
  rw [← BitVec.toNat_inj]
  rfl

theorem eq_one_iff_toNat : value = 1 ↔ value.toNat = 1 := by
  rw [← BitVec.toNat_inj]
  rfl

theorem toInt_signExtend_of_lt (pos : 0 < size) (le : size ≤ 64) (small : value.toNat < 2 ^ size) :
    (signExtend value size).toInt = signedNumber (2 ^ (size - 1)) value.toNat := by
  have fits : value = (value.setWidth size).setWidth 64 := by
    apply BitVec.eq_of_toNat_eq
    rw [toNat_setWidth_of_le le, BitVec.toNat_setWidth, Nat.mod_eq_of_lt small]
  have double := two_pow_pred pos
  have extended := signExtend_setWidth pos le (value.setWidth size)
  rw [← fits] at extended
  rw [extended, BitVec.toInt_signExtend_of_le le, BitVec.toInt_eq_toNat_cond,
    BitVec.toNat_setWidth, Nat.mod_eq_of_lt small, double]
  unfold signedNumber
  push_cast
  split_ifs <;> omega

end Constants

/-! ## The first switch -/

def Opcode.Reaches (half v : Nat) : Opcode → Prop
  | .setEq | .setNe => True
  | .setLt | .setGe => v = 0 ∨ half + 1 < v
  | .setLe | .setGt => v < half
  | .setBe | .setA => 0 < v ∧ v + 2 < 2 * half
  | _ => False

def SameCompare (half : Nat) (opcode : Opcode) (v : Nat) (opcode' : Opcode) (v' : Nat) : Prop :=
  opcode'.isCompare = true ∧ v' < 2 * half ∧
    ∀ a < 2 * half, opcode'.Holds half a v' ↔ opcode.Holds half a v

def FirstStep.Right (half : Nat) (opcode : Opcode) (v : Nat) : FirstStep → Prop
  | .constant result =>
    (result = 0 ∨ result = 1) ∧ ∀ a < 2 * half, result = 1 ↔ opcode.Holds half a v
  | .done opcode' value => SameCompare half opcode v opcode' value.toNat
  | .further opcode' value =>
    SameCompare half opcode v opcode' value.toNat ∧ opcode'.Reaches half value.toNat

/-! ## Opposite comparisons

The cases of a comparison and of its negation are opposite to each other, so that only
one of them has to be looked at. -/

def Opcode.opposite (opcode : Opcode) : Opcode := opcode.negate.getD opcode

theorem isCompare_opposite {opcode : Opcode} (compare : opcode.isCompare = true) :
    opcode.opposite.isCompare = true := by
  cases opcode <;> first | rfl | cases compare

theorem holds_opposite {opcode : Opcode} (compare : opcode.isCompare = true) (half a b : Nat) :
    opcode.opposite.Holds half a b ↔ ¬opcode.Holds half a b := by
  cases opcode with
  | setEq => exact Iff.rfl
  | setNe => exact not_not.symm
  | setLt | setB => exact not_lt.symm
  | setLe | setBe => exact not_le.symm
  | setGe | setAe => exact not_le.symm
  | setGt | setA => exact not_lt.symm
  | _ => cases compare

theorem reaches_opposite {opcode : Opcode} {half v : Nat} (reaches : opcode.Reaches half v) :
    opcode.opposite.Reaches half v := by
  cases opcode <;> exact reaches

theorem SameCompare.opposite {half v v' : Nat} {opcode opcode' : Opcode}
    (compare : opcode.isCompare = true) (same : SameCompare half opcode v opcode' v') :
    SameCompare half opcode.opposite v opcode'.opposite v' := by
  refine ⟨isCompare_opposite same.1, same.2.1, fun a below => ?_⟩
  rw [holds_opposite same.1, holds_opposite compare, same.2.2 a below]

def FirstStep.opposite : FirstStep → FirstStep
  | .constant result => .constant (if result = 1 then 0 else 1)
  | .done opcode value => .done opcode.opposite value
  | .further opcode value => .further opcode.opposite value

theorem FirstStep.Right.opposite {half v : Nat} {opcode : Opcode} {step : FirstStep}
    (compare : opcode.isCompare = true) (right : step.Right half opcode v) :
    step.opposite.Right half opcode.opposite v := by
  cases step with
  | constant result =>
    obtain ⟨known, equivalent⟩ := right
    rcases known with rfl | rfl
    · refine ⟨Or.inr rfl, fun a below => ?_⟩
      rw [holds_opposite compare, ← equivalent a below]
      decide
    · refine ⟨Or.inl rfl, fun a below => ?_⟩
      rw [holds_opposite compare, ← equivalent a below]
      decide
  | done opcode' value => exact SameCompare.opposite compare right
  | further opcode' value => exact ⟨right.1.opposite compare, reaches_opposite right.2⟩

section First

variable {size : Nat} {value : BitVec 64}

theorem never_right {half v : Nat} {opcode : Opcode}
    (never : ∀ a < 2 * half, ¬opcode.Holds half a v) :
    (FirstStep.constant 0).Right half opcode v :=
  ⟨Or.inl rfl, fun a small => iff_of_false (by decide) (never a small)⟩

theorem always_right {half v : Nat} {opcode : Opcode}
    (always : ∀ a < 2 * half, opcode.Holds half a v) :
    (FirstStep.constant 1).Right half opcode v :=
  ⟨Or.inr rfl, fun a small => iff_of_true rfl (always a small)⟩

theorem firstSigned_setLt_right (pos : 0 < size) (le : size ≤ 64) (small : value.toNat < 2 ^ size) :
    (firstSigned size .setLt value).Right (2 ^ (size - 1)) .setLt value.toNat := by
  have positive := half_pos size
  have double := two_pow_pred pos
  have bit := toNat_signBit pos le
  unfold firstSigned
  simp only [eq_zero_iff_toNat, eq_signBit_iff pos le, eq_signMask_iff pos le,
    eq_signBit_succ_iff pos le, and_signBit_eq_zero_iff pos le small]
  split_ifs with zero smin smax succ upper
  · exact ⟨⟨rfl, by omega, fun a below => Iff.rfl⟩, Or.inl zero⟩
  · refine never_right fun a below => ?_
    unfold Opcode.Holds signedNumber
    split_ifs <;> omega
  · refine ⟨rfl, by omega, fun a below => ?_⟩
    unfold Opcode.Holds signedNumber
    dsimp only
    split_ifs <;> omega
  · refine ⟨rfl, by omega, fun a below => ?_⟩
    rw [bit]
    unfold Opcode.Holds signedNumber
    dsimp only
    split_ifs <;> omega
  · have pred := toNat_pred_and_bitsMask pos le small (mt eq_zero_iff_toNat.mp zero)
    refine ⟨⟨rfl, by omega, fun a below => ?_⟩, ?_⟩
    · rw [pred]
      unfold Opcode.Holds signedNumber
      dsimp only
      split_ifs <;> omega
    · change _ < _
      omega
  · exact ⟨⟨rfl, by omega, fun a below => Iff.rfl⟩, Or.inr (by omega)⟩

theorem firstSigned_setGe_eq : firstSigned size .setGe value =
    (firstSigned size .setLt value).opposite := by
  dsimp only [firstSigned]
  split_ifs <;> rfl

theorem firstSigned_setLe_right (pos : 0 < size) (le : size ≤ 64) (small : value.toNat < 2 ^ size) :
    (firstSigned size .setLe value).Right (2 ^ (size - 1)) .setLe value.toNat := by
  have positive := half_pos size
  have double := two_pow_pred pos
  have mask := toNat_signMask pos le
  have succ := @toNat_succ_and_bitsMask size value pos le
  unfold firstSigned
  simp only [eq_zero_iff_toNat, eq_signBit_iff pos le, eq_signMask_iff pos le,
    eq_signMask_pred_iff pos le small, ne_eq, and_signBit_eq_zero_iff pos le small, not_lt]
  split_ifs with zero smax smin pred upper
  · exact ⟨⟨rfl, by omega, fun a below => Iff.rfl⟩, show _ < _ by omega⟩
  · refine always_right fun a below => ?_
    unfold Opcode.Holds signedNumber
    split_ifs <;> omega
  · refine ⟨rfl, by omega, fun a below => ?_⟩
    unfold Opcode.Holds signedNumber
    dsimp only
    split_ifs <;> omega
  · refine ⟨rfl, by omega, fun a below => ?_⟩
    rw [mask]
    unfold Opcode.Holds signedNumber
    dsimp only
    split_ifs <;> omega
  · -- The successor of the largest constant is zero.
    have wraps : (value.toNat + 1) % 2 ^ size =
        if value.toNat + 1 = 2 ^ size then 0 else value.toNat + 1 := by
      split
      case isTrue last => rw [last, Nat.mod_self]
      case isFalse inner => exact Nat.mod_eq_of_lt (by omega)
    rw [wraps] at succ
    refine ⟨⟨rfl, ?_, fun a below => ?_⟩, ?_⟩
    · rw [succ]
      split_ifs <;> omega
    · rw [succ]
      unfold Opcode.Holds signedNumber
      dsimp only
      split_ifs <;> omega
    · change _ = 0 ∨ _
      rw [succ]
      split_ifs <;> omega
  · exact ⟨⟨rfl, by omega, fun a below => Iff.rfl⟩, show _ < _ by omega⟩

theorem firstSigned_setGt_eq : firstSigned size .setGt value =
    (firstSigned size .setLe value).opposite := by
  dsimp only [firstSigned]
  split_ifs <;> rfl

theorem firstSwitch_setB_right (pos : 0 < size) (le : size ≤ 64) (small : value.toNat < 2 ^ size) :
    (firstSwitch size .setB value).Right (2 ^ (size - 1)) .setB value.toNat := by
  have double := two_pow_pred pos
  have positive := half_pos size
  unfold firstSwitch
  simp only [eq_zero_iff_toNat, eq_one_iff_toNat, eq_bitsMask_iff pos le]
  split_ifs with zero one last
  · refine never_right fun a below => ?_
    rw [zero]
    exact Nat.not_lt_zero a
  · refine ⟨rfl, by rw [← double]; exact Nat.two_pow_pos size, fun a below => ?_⟩
    rw [one]
    exact Nat.lt_one_iff.symm
  · refine ⟨rfl, by omega, fun a below => ?_⟩
    change a ≠ _ ↔ a < _
    omega
  · have pred := toNat_pred_and_bitsMask pos le small (mt eq_zero_iff_toNat.mp zero)
    refine ⟨⟨rfl, by omega, fun a below => ?_⟩, ?_⟩
    · rw [pred]
      change a ≤ _ ↔ a < _
      omega
    · rw [pred]
      change 0 < _ ∧ _
      omega

theorem firstSwitch_setAe_eq : firstSwitch size .setAe value =
    (firstSwitch size .setB value).opposite := by
  dsimp only [firstSwitch]
  split_ifs <;> rfl

theorem firstSwitch_setBe_right (pos : 0 < size) (le : size ≤ 64) (small : value.toNat < 2 ^ size) :
    (firstSwitch size .setBe value).Right (2 ^ (size - 1)) .setBe value.toNat := by
  have double := two_pow_pred pos
  have positive := half_pos size
  have mask := toNat_bitsMask pos le
  unfold firstSwitch
  simp only [eq_zero_iff_toNat, eq_bitsMask_iff pos le, eq_bitsMask_pred_iff pos le,
    eq_bitsMask_half_iff pos le]
  split_ifs with zero last pred smax
  · refine ⟨rfl, by omega, fun a below => ?_⟩
    change a = _ ↔ a ≤ _
    omega
  · refine always_right fun a below => ?_
    change a ≤ _
    omega
  · refine ⟨rfl, by omega, fun a below => ?_⟩
    rw [mask]
    change a ≠ _ ↔ a ≤ _
    omega
  · refine ⟨⟨rfl, by rw [← double]; exact Nat.two_pow_pos size, fun a below => ?_⟩, Or.inl rfl⟩
    change signedNumber _ a ≥ signedNumber _ 0 ↔ a ≤ _
    unfold signedNumber
    split_ifs <;> omega
  · exact ⟨⟨rfl, by omega, fun a below => Iff.rfl⟩, show 0 < _ ∧ _ by omega⟩

theorem firstSwitch_setA_eq : firstSwitch size .setA value =
    (firstSwitch size .setBe value).opposite := by
  dsimp only [firstSwitch]
  split_ifs <;> rfl

theorem firstSwitch_right (pos : 0 < size) (le : size ≤ 64) (small : value.toNat < 2 ^ size)
    {opcode : Opcode} (compare : opcode.isCompare = true) :
    (firstSwitch size opcode value).Right (2 ^ (size - 1)) opcode value.toNat := by
  have double := two_pow_pred pos
  cases opcode with
  | setEq | setNe => exact ⟨⟨rfl, by omega, fun a below => Iff.rfl⟩, trivial⟩
  | setLt => exact firstSigned_setLt_right pos le small
  | setLe => exact firstSigned_setLe_right pos le small
  | setGe =>
    change (firstSigned size .setGe value).Right _ _ _
    rw [firstSigned_setGe_eq]
    exact (firstSigned_setLt_right pos le small).opposite rfl
  | setGt =>
    change (firstSigned size .setGt value).Right _ _ _
    rw [firstSigned_setGt_eq]
    exact (firstSigned_setLe_right pos le small).opposite rfl
  | setB => exact firstSwitch_setB_right pos le small
  | setBe => exact firstSwitch_setBe_right pos le small
  | setAe =>
    rw [firstSwitch_setAe_eq]
    exact (firstSwitch_setB_right pos le small).opposite rfl
  | setA =>
    rw [firstSwitch_setA_eq]
    exact (firstSwitch_setBe_right pos le small).opposite rfl
  | _ => cases compare

end First

end SmatchFormal.Ir
