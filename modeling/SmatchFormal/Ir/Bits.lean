import Mathlib.Tactic.Ring

/-!
# Masks and extensions

The helpers of `bits.h`.  A value of some width is kept in 64 bits, and is extended
with zeros or with its sign bit.
-/

namespace SmatchFormal.Ir

def signBit (size : Nat) : BitVec 64 := 1#64 <<< (size - 1)

def signMask (size : Nat) : BitVec 64 := signBit size - 1

def bitsMask (size : Nat) : BitVec 64 := signBit size ||| (signBit size - 1)

def zeroExtend (val : BitVec 64) (size : Nat) : BitVec 64 := val &&& bitsMask size

def signExtend (val : BitVec 64) (size : Nat) : BitVec 64 :=
  if val &&& signBit size ≠ 0 then val ||| ~~~signMask size else val

def bitsExtend (val : BitVec 64) (size : Nat) (isSigned : Bool) : BitVec 64 :=
  if isSigned then signExtend (zeroExtend val size) size else zeroExtend val size

section Masks

variable {size : Nat}

theorem signBit_eq (size : Nat) : signBit size = BitVec.twoPow 64 (size - 1) := rfl

theorem toNat_signBit (pos : 0 < size) (le : size ≤ 64) :
    (signBit size).toNat = 2 ^ (size - 1) := by
  rw [signBit_eq]
  exact BitVec.toNat_twoPow_of_lt (by omega)

theorem toNat_signMask (pos : 0 < size) (le : size ≤ 64) :
    (signMask size).toNat = 2 ^ (size - 1) - 1 := by
  have positive : 0 < 2 ^ (size - 1) := Nat.two_pow_pos _
  have bound := (signBit size).isLt
  unfold signMask
  rw [BitVec.toNat_sub_of_le]
  · rw [toNat_signBit pos le]
    rfl
  · rw [BitVec.le_def, toNat_signBit pos le]
    exact positive

theorem two_pow_pred (pos : 0 < size) : 2 ^ size = 2 * 2 ^ (size - 1) := by
  rw [← pow_succ', Nat.sub_add_cancel pos]

section

variable (pos : 0 < size) (le : size ≤ 64)
include pos le

theorem toNat_bitsMask :
    (bitsMask size).toNat = 2 ^ size - 1 := by
  have positive : 0 < 2 ^ (size - 1) := Nat.two_pow_pos _
  have mask := toNat_signMask pos le
  unfold signMask at mask
  unfold bitsMask
  have union := Nat.two_pow_add_eq_or_of_lt
    (by omega : 2 ^ (size - 1) - 1 < 2 ^ (size - 1)) 1
  rw [mul_one] at union
  rw [BitVec.toNat_or, mask, toNat_signBit pos le, ← union]
  have double := two_pow_pred pos
  omega

theorem toNat_and_bitsMask (val : BitVec 64) :
    (val &&& bitsMask size).toNat = val.toNat % 2 ^ size := by
  rw [BitVec.toNat_and, toNat_bitsMask pos le, Nat.and_two_pow_sub_one_eq_mod]

theorem and_bitsMask (val : BitVec 64) :
    val &&& bitsMask size = (val.setWidth size).setWidth 64 := by
  apply BitVec.eq_of_toNat_eq
  rw [toNat_and_bitsMask pos le, BitVec.toNat_setWidth, BitVec.toNat_setWidth]
  refine (Nat.mod_eq_of_lt ?_).symm
  exact (Nat.mod_lt _ (Nat.two_pow_pos _)).trans_le (Nat.pow_le_pow_right (by decide) le)

/-- The test of the sign bit of a value. -/
theorem and_signBit_ne_zero (x : BitVec size) :
    x.setWidth 64 &&& signBit size ≠ 0 ↔ x.msb = true := by
  rw [signBit_eq, BitVec.and_twoPow, BitVec.getLsbD_setWidth, BitVec.msb_eq_getLsbD_last]
  have inside : size - 1 < 64 := by omega
  have power : BitVec.twoPow 64 (size - 1) ≠ 0 := by
    intro zero
    have number := congrArg BitVec.toNat zero
    rw [BitVec.toNat_twoPow_of_lt inside] at number
    exact absurd number (Nat.two_pow_pos _).ne'
  cases x.getLsbD (size - 1) with
  | false => simp
  | true =>
    rw [decide_eq_true inside, Bool.and_self, if_pos rfl]
    exact iff_of_true power rfl

end

theorem toNat_setWidth_of_le (le : size ≤ 64) (x : BitVec size) :
    (x.setWidth 64).toNat = x.toNat := by
  rw [BitVec.toNat_setWidth]
  exact Nat.mod_eq_of_lt (x.isLt.trans_le (Nat.pow_le_pow_right (by decide) le))

/-- A value whose sign bit is set, with all higher bits set. -/
theorem or_not_bitsMask (pos : 0 < size) (le : size ≤ 64) {x : BitVec size} (sign : x.msb = true) :
    x.setWidth 64 ||| ~~~bitsMask size = x.signExtend 64 := by
  apply BitVec.eq_of_getLsbD_eq
  intro i inside
  rw [BitVec.getLsbD_or, BitVec.getLsbD_not, BitVec.getLsbD_signExtend, BitVec.getLsbD_setWidth]
  have mask : (bitsMask size).getLsbD i = decide (i < size) := by
    unfold BitVec.getLsbD
    rw [toNat_bitsMask pos le, Nat.testBit_two_pow_sub_one]
  rw [mask, sign]
  by_cases low : i < size
  · simp [low, inside]
  · simp [low, inside, BitVec.getLsbD_of_ge x i (not_lt.mp low)]

theorem signExtend_of_msb_false {x : BitVec size} (sign : x.msb = false) :
    x.signExtend 64 = x.setWidth 64 := by
  rw [BitVec.signExtend_eq_setWidth_of_msb_false sign]

/-- `sign_extend` of a value that is extended with zeros. -/
theorem signExtend_setWidth (pos : 0 < size) (le : size ≤ 64) (x : BitVec size) :
    signExtend (x.setWidth 64) size = x.signExtend 64 := by
  unfold signExtend
  by_cases sign : x.msb = true
  · rw [if_pos ((and_signBit_ne_zero pos le x).mpr sign), ← or_not_bitsMask pos le sign]
    -- The sign bit itself is set already.
    apply BitVec.eq_of_getLsbD_eq
    intro i inside
    rw [BitVec.getLsbD_or, BitVec.getLsbD_not, BitVec.getLsbD_or, BitVec.getLsbD_not]
    have mask : (bitsMask size).getLsbD i = decide (i < size) := by
      unfold BitVec.getLsbD
      rw [toNat_bitsMask pos le, Nat.testBit_two_pow_sub_one]
    have smaller : (signMask size).getLsbD i = decide (i < size - 1) := by
      unfold BitVec.getLsbD
      rw [toNat_signMask pos le, Nat.testBit_two_pow_sub_one]
    rw [mask, smaller, BitVec.getLsbD_setWidth]
    by_cases last : i = size - 1
    · rw [BitVec.msb_eq_getLsbD_last] at sign
      simp [last, sign, show size - 1 < 64 by omega]
    · have same : i < size ↔ i < size - 1 := by omega
      simp [same]
  · rw [if_neg fun set => sign ((and_signBit_ne_zero pos le x).mp set),
      signExtend_of_msb_false (Bool.not_eq_true _ |>.mp sign)]

end Masks

end SmatchFormal.Ir
