import SmatchFormal.Expand.IntBinop

/-!
# The two folders

`eval_op` and `simplify_int_binop` compute the same value from the same constants,
and it is the one that C gives.  They differ in the quotient that does not fit.
-/

namespace SmatchFormal.Expand

open SmatchFormal.Ir

variable {w : Nat}

theorem toInt_signExtend64 (le : w ≤ 64) (x : BitVec w) : (x.signExtend 64).toInt = x.toInt :=
  BitVec.toInt_signExtend_of_le le

/-- A width is at most the number of values without a sign bit. -/
theorem le_two_pow_pred (pos : 0 < w) : w ≤ 2 ^ (w - 1) := by
  have less : w - 1 < 2 ^ (w - 1) := Nat.lt_two_pow_self
  omega

theorem toInt_of_lt {y : BitVec w} (pos : 0 < w) (small : y.toNat < 2 ^ (w - 1)) :
    y.toInt = y.toNat := by
  have double := two_pow_pred pos
  rw [BitVec.toInt_eq_toNat_cond, if_pos (by omega)]

theorem toInt_of_ge {y : BitVec w} (pos : 0 < w) (large : 2 ^ (w - 1) ≤ y.toNat) :
    y.toInt < 0 := by
  have double := two_pow_pred pos
  have bound := y.isLt
  rw [BitVec.toInt_eq_toNat_cond, if_neg (by omega)]
  have cast : ((2 ^ w : Nat) : Int) = 2 * ((2 ^ (w - 1) : Nat) : Int) := by
    rw [double]
    push_cast
    ring
  omega

theorem ofInt_setWidth (le : w ≤ 64) (n : Int) :
    (BitVec.ofInt 64 n).setWidth w = BitVec.ofInt w n := by
  apply BitVec.eq_of_toInt_eq
  rw [← BitVec.signExtend_eq_setWidth_of_le _ le, BitVec.toInt_signExtend, BitVec.toInt_ofInt,
    BitVec.toInt_ofInt, Nat.min_eq_left le,
    Int.bmod_bmod_of_dvd (pow_dvd_pow 2 le)]

theorem sdiv_eq_ofInt {v : Nat} (x y : BitVec v) :
    x.sdiv y = BitVec.ofInt v (x.toInt.tdiv y.toInt) := by
  apply BitVec.eq_of_toInt_eq
  rw [BitVec.toInt_sdiv, BitVec.toInt_ofInt]

theorem srem_eq_ofInt {v : Nat} (x y : BitVec v) :
    x.srem y = BitVec.ofInt v (x.toInt.tmod y.toInt) := by
  rw [← BitVec.toInt_srem, BitVec.ofInt_toInt]

theorem sshiftRight_eq_ofInt {v : Nat} (x : BitVec v) (n : Nat) :
    x.sshiftRight n = BitVec.ofInt v (x.toInt >>> n) := by
  rw [← BitVec.toInt_sshiftRight, BitVec.ofInt_toInt]

section

variable (le : w ≤ 64)
include le

theorem sdiv_setWidth (x y : BitVec w) :
    ((x.signExtend 64).sdiv (y.signExtend 64)).setWidth w = x.sdiv y := by
  rw [sdiv_eq_ofInt, ofInt_setWidth le, toInt_signExtend64 le, toInt_signExtend64 le,
    ← sdiv_eq_ofInt]

theorem srem_setWidth (x y : BitVec w) :
    ((x.signExtend 64).srem (y.signExtend 64)).setWidth w = x.srem y := by
  rw [srem_eq_ofInt, ofInt_setWidth le, toInt_signExtend64 le, toInt_signExtend64 le,
    ← srem_eq_ofInt]

theorem sshiftRight_setWidth (x : BitVec w) (n : Nat) :
    ((x.signExtend 64).sshiftRight n).setWidth w = x.sshiftRight n := by
  rw [sshiftRight_eq_ofInt, ofInt_setWidth le, toInt_signExtend64 le, ← sshiftRight_eq_ofInt]

theorem udiv_setWidth (x y : BitVec w) :
    (x.setWidth 64 / y.setWidth 64).setWidth w = x / y := by
  apply BitVec.eq_of_toNat_eq
  rw [BitVec.toNat_setWidth, BitVec.toNat_udiv, BitVec.toNat_udiv, toNat_setWidth_of_le le,
    toNat_setWidth_of_le le]
  exact Nat.mod_eq_of_lt ((Nat.div_le_self _ _).trans_lt x.isLt)

theorem umod_setWidth (x y : BitVec w) :
    (x.setWidth 64 % y.setWidth 64).setWidth w = x % y := by
  apply BitVec.eq_of_toNat_eq
  rw [BitVec.toNat_setWidth, BitVec.toNat_umod, BitVec.toNat_umod, toNat_setWidth_of_le le,
    toNat_setWidth_of_le le]
  exact Nat.mod_eq_of_lt ((Nat.mod_le _ _).trans_lt x.isLt)

theorem ushiftRight_setWidth (x : BitVec w) (n : Nat) :
    (x.setWidth 64 >>> n).setWidth w = x >>> n := by
  apply BitVec.eq_of_toNat_eq
  rw [BitVec.toNat_setWidth, BitVec.toNat_ushiftRight, BitVec.toNat_ushiftRight,
    toNat_setWidth_of_le le, Nat.shiftRight_eq_div_pow]
  exact Nat.mod_eq_of_lt ((Nat.div_le_self _ _).trans_lt x.isLt)

/-- A shift to the left loses what is beyond the width in any case. -/
theorem shiftLeft_setWidth (v : BitVec 64) (n : Nat) :
    (v <<< n).setWidth w = v.setWidth w <<< n := by
  apply BitVec.eq_of_toNat_eq
  rw [BitVec.toNat_setWidth, BitVec.toNat_shiftLeft, BitVec.toNat_shiftLeft, BitVec.toNat_setWidth,
    Nat.shiftLeft_eq, Nat.shiftLeft_eq, Nat.mod_mod_of_dvd _ (pow_dvd_pow 2 le), Nat.mod_mul_mod]

theorem setWidth_eq_zero (y : BitVec w) : y.setWidth 64 = 0 ↔ y = 0 := by
  rw [← BitVec.toNat_inj, ← BitVec.toNat_inj, toNat_setWidth_of_le le]
  rfl

theorem signExtend_inj {x y : BitVec w} :
    x.signExtend 64 = y.signExtend 64 ↔ x = y := by
  constructor
  · intro same
    rw [← setWidth_signExtend le x, same, setWidth_signExtend le]
  · exact congrArg _

theorem setWidth_inj {x y : BitVec w} :
    x.setWidth 64 = y.setWidth 64 ↔ x = y := by
  rw [← BitVec.toNat_inj, ← BitVec.toNat_inj, toNat_setWidth_of_le le, toNat_setWidth_of_le le]

theorem signExtend_eq_zero (y : BitVec w) : y.signExtend 64 = 0 ↔ y = 0 := by
  have zero : (0 : BitVec w).signExtend 64 = 0 := by
    apply BitVec.eq_of_toInt_eq
    rw [toInt_signExtend64 le]
    exact BitVec.toInt_zero.trans BitVec.toInt_zero.symm
  rw [← zero, signExtend_inj le]

end

section

variable (pos : 0 < w) (le : w ≤ 64)
include pos le

theorem signExtend_eq_neg_one (y : BitVec w) :
    y.signExtend 64 = -1 ↔ y = -1 := by
  have minus : (-1 : BitVec w).signExtend 64 = -1 := by
    apply BitVec.eq_of_toInt_eq
    rw [toInt_signExtend64 le]
    change (-1#w).toInt = (-1#64).toInt
    rw [BitVec.neg_one_eq_allOnes, BitVec.neg_one_eq_allOnes, BitVec.toInt_allOnes,
      BitVec.toInt_allOnes, if_pos pos, if_pos (by decide)]
  rw [← minus, signExtend_inj le]

theorem setWidth_eq_signBit (x : BitVec w) :
    x.setWidth 64 = signBit w ↔ x = BitVec.intMin w := by
  rw [← BitVec.toNat_inj, ← BitVec.toNat_inj, toNat_setWidth_of_le le, toNat_signBit pos le,
    BitVec.toNat_intMin_of_pos pos]

/-- The test of `eval_op` for the smallest number only works at 64 bits. -/
theorem signExtend_eq_signBit (x : BitVec w) :
    x.signExtend 64 = signBit w ↔ w = 64 ∧ x = BitVec.intMin w := by
  by_cases wide : w = 64
  · subst wide
    rw [BitVec.signExtend_eq, ← setWidth_eq_signBit pos le, BitVec.setWidth_eq]
    exact ⟨fun smallest => ⟨rfl, smallest⟩, And.right⟩
  · refine iff_of_false ?_ fun both => wide both.1
    intro same
    have narrow : w < 64 := lt_of_le_of_ne le wide
    -- The value would be the smallest number of its width and positive at 64 bits.
    have value : x = BitVec.intMin w := by
      rw [← setWidth_signExtend le x, same]
      apply BitVec.eq_of_toNat_eq
      rw [BitVec.toNat_setWidth, toNat_signBit pos le, BitVec.toNat_intMin_of_pos pos]
      exact Nat.mod_eq_of_lt (Nat.pow_lt_pow_right (by decide) (by omega))
    have negative : (signBit w).toInt < 0 := by
      rw [← same, toInt_signExtend64 le]
      refine toInt_of_ge pos ?_
      rw [value, BitVec.toNat_intMin_of_pos pos]
    have small : (signBit w).toNat < 2 ^ (64 - 1) := by
      rw [toNat_signBit pos le]
      exact Nat.pow_lt_pow_right (by decide) (by omega)
    rw [toInt_of_lt (by decide) small] at negative
    omega

theorem signedOperand_setWidth (x : BitVec w) :
    signedOperand w (x.setWidth 64) = x.signExtend 64 :=
  signExtend_setWidth pos le x

/-- A count is extended without change when it is smaller than the width. -/
theorem toNat_signExtend_of_lt {y : BitVec w} (small : y.toNat < w) :
    (y.signExtend 64).toNat = y.toNat := by
  have low := small.trans_le (le_two_pow_pred pos)
  have sign : y.msb = false := by
    rw [BitVec.msb_eq_false_iff_two_mul_lt]
    have double := two_pow_pred pos
    omega
  rw [signExtend_of_msb_false sign, toNat_setWidth_of_le le]

theorem getLonglong_setWidth (unsigned : Bool) (y : BitVec w) :
    getLonglong ⟨w, unsigned⟩ (y.setWidth 64) =
      if unsigned then y.setWidth 64 else y.signExtend 64 := by
  have low : y.setWidth 64 &&& bitsMask w = y.setWidth 64 := by
    rw [and_bitsMask pos le, BitVec.setWidth_setWidth_of_le _ le, BitVec.setWidth_eq]
  unfold getLonglong
  simp only [low]
  cases unsigned with
  | true => simp
  | false =>
    by_cases sign : y.msb = true
    · have set_ := (and_signBit_ne_zero pos le y).mpr sign
      simp only [Bool.false_or, beq_eq_false_iff_ne.mpr set_, Bool.false_eq_true, if_false]
      exact or_not_bitsMask pos le sign
    · have clear : y.setWidth 64 &&& signBit w = 0 := by
        by_contra set_
        exact sign ((and_signBit_ne_zero pos le y).mp set_)
      simp only [clear, beq_self_eq_true, Bool.or_true, if_true, Bool.false_eq_true, if_false]
      rw [signExtend_of_msb_false (Bool.not_eq_true _ |>.mp sign)]
      exact BitVec.or_zero

/-- `check_shift_count` accepts the counts that are smaller than the width. -/
theorem checkShiftCount_eq (unsigned : Bool) (y : BitVec w) :
    checkShiftCount w ⟨w, unsigned⟩ (y.setWidth 64) = decide (y.toNat < w) := by
  have width := le_two_pow_pred pos
  unfold checkShiftCount
  rw [getLonglong_setWidth pos le]
  refine decide_eq_decide.mpr ?_
  by_cases small : y.toNat < 2 ^ (w - 1)
  · have value : (if unsigned then y.setWidth 64 else y.signExtend 64).toInt = y.toNat := by
      split_ifs
      · have bound : (y.setWidth 64).toNat < 2 ^ (64 - 1) := by
          rw [toNat_setWidth_of_le le]
          exact small.trans_le (Nat.pow_le_pow_right (by decide) (by omega))
        rw [toInt_of_lt (by decide) bound, toNat_setWidth_of_le le]
      · rw [toInt_signExtend64 le, toInt_of_lt pos small]
    rw [value]
    omega
  · refine iff_of_false ?_ (by omega)
    rintro ⟨nonneg, less⟩
    split_ifs at nonneg less
    · rw [BitVec.toInt_eq_toNat_cond] at nonneg less
      rw [toNat_setWidth_of_le le] at nonneg less
      split_ifs at nonneg less
      · omega
      · have bound := y.isLt.trans_le (Nat.pow_le_pow_right (by decide) le : 2 ^ w ≤ 2 ^ 64)
        omega
    · rw [toInt_signExtend64 le] at nonneg
      exact absurd nonneg (not_le.mpr (toInt_of_ge pos (not_lt.mp small)))

end

theorem map_and_bitsMask (pos : 0 < w) (le : w ≤ 64) {result : Option (BitVec 64)}
    {value : Option (BitVec w)} (same : result.map (·.setWidth w) = value) :
    result.map (· &&& bitsMask w) = value.map (·.setWidth 64) := by
  rw [← same, Option.map_map]
  congr 1
  funext v
  exact and_bitsMask pos le v

theorem setWidth_setWidth64 (le : w ≤ 64) (x : BitVec w) : (x.setWidth 64).setWidth w = x := by
  rw [BitVec.setWidth_setWidth_of_le _ le, BitVec.setWidth_eq]

section Wraps

variable {x y : BitVec w} {a b : BitVec 64}

section

variable (le : w ≤ 64) (left : a.setWidth w = x) (right : b.setWidth w = y)
include le left right

theorem wraps_add :
    (a + b).setWidth w = x + y := by
  rw [BitVec.setWidth_add _ _ le, left, right]

theorem wraps_sub :
    (a - b).setWidth w = x - y := by
  rw [BitVec.sub_eq_add_neg, BitVec.setWidth_add _ _ le, BitVec.setWidth_neg_of_le le, left, right,
    ← BitVec.sub_eq_add_neg]

theorem wraps_mul :
    (a * b).setWidth w = x * y := by
  rw [BitVec.setWidth_mul _ _ le, left, right]

end

section

variable (left : a.setWidth w = x) (right : b.setWidth w = y)
include left right

theorem wraps_and :
    (a &&& b).setWidth w = x &&& y := by
  rw [BitVec.setWidth_and, left, right]

theorem wraps_or :
    (a ||| b).setWidth w = x ||| y := by
  rw [BitVec.setWidth_or, left, right]

theorem wraps_xor :
    (a ^^^ b).setWidth w = x ^^^ y := by
  rw [BitVec.setWidth_xor, left, right]

end

end Wraps

theorem intSwitch_eq (pos : 0 < w) (le : w ≤ 64) (op : BinaryOp) (unsigned : Bool) (x y : BitVec w)
    (count : op.isShift = true → y.toNat < w) :
    (intSwitch op ⟨w, unsigned⟩ (x.setWidth 64) (y.setWidth 64)).map (·.setWidth w) =
      cBinop op unsigned x y := by
  have left := setWidth_setWidth64 le x
  have right := setWidth_setWidth64 le y
  cases op with
  | add => exact congrArg some (wraps_add le left right)
  | sub => exact congrArg some (wraps_sub le left right)
  | and => exact congrArg some (wraps_and left right)
  | or => exact congrArg some (wraps_or left right)
  | xor => exact congrArg some (wraps_xor left right)
  | mul =>
    simp only [intSwitch, cBinop, signedOperand_setWidth pos le]
    cases unsigned with
    | true => exact congrArg some (wraps_mul le left right)
    | false =>
      exact congrArg some (wraps_mul le (setWidth_signExtend le x) (setWidth_signExtend le y))
  | div =>
    simp only [intSwitch, cBinop, signedOperand_setWidth pos le, setWidth_eq_zero le,
      setWidth_eq_signBit pos le]
    cases unsigned with
    | true =>
      simp only [Bool.not_true, Bool.false_eq_true, if_false, if_true]
      split_ifs
      · rfl
      · exact congrArg some (udiv_setWidth le x y)
    | false =>
      simp only [Bool.not_false, Bool.false_eq_true, if_false, if_true,
        signExtend_eq_neg_one pos le]
      split_ifs
      · rfl
      · rfl
      · exact congrArg some (sdiv_setWidth le x y)
  | mod =>
    simp only [intSwitch, cBinop, signedOperand_setWidth pos le, setWidth_eq_zero le,
      setWidth_eq_signBit pos le]
    cases unsigned with
    | true =>
      simp only [Bool.not_true, Bool.false_eq_true, if_false, if_true]
      split_ifs
      · rfl
      · exact congrArg some (umod_setWidth le x y)
    | false =>
      simp only [Bool.not_false, Bool.false_eq_true, if_false, if_true,
        signExtend_eq_neg_one pos le]
      split_ifs
      · rfl
      · rfl
      · exact congrArg some (srem_setWidth le x y)
  | leftShift =>
    simp only [intSwitch, cBinop, if_pos (count rfl), toNat_setWidth_of_le le, Option.map_some]
    rw [shiftLeft_setWidth le, left]
  | rightShift =>
    simp only [intSwitch, cBinop, if_pos (count rfl), toNat_setWidth_of_le le, Option.map_some,
      signedOperand_setWidth pos le]
    cases unsigned with
    | true =>
      simp only [Bool.not_true, Bool.false_eq_true, if_false, if_true]
      rw [ushiftRight_setWidth le]
    | false =>
      simp only [Bool.not_false, Bool.false_eq_true, if_false, if_true]
      rw [sshiftRight_setWidth le]

theorem simplifyIntBinop_eq (pos : 0 < w) (le : w ≤ 64) (op : BinaryOp) (unsigned right : Bool)
    (x y : BitVec w) :
    simplifyIntBinop op ⟨w, unsigned⟩ ⟨w, right⟩ (x.setWidth 64) (y.setWidth 64) =
      (cBinop op unsigned x y).map (·.setWidth 64) := by
  unfold simplifyIntBinop
  rw [checkShiftCount_eq pos le]
  by_cases refused : op.isShift = true ∧ ¬ y.toNat < w
  · have value : cBinop op unsigned x y = none := by
      cases op with
      | leftShift | rightShift => exact if_neg refused.2
      | _ => cases refused.1
    rw [if_pos (by rw [refused.1, decide_eq_false refused.2]; rfl), value]
    rfl
  · have count : op.isShift = true → y.toNat < w := by
      intro shift
      by_contra large
      exact refused ⟨shift, large⟩
    rw [if_neg]
    · exact map_and_bitsMask pos le (intSwitch_eq pos le op unsigned x y count)
    · intro both
      rw [Bool.and_eq_true, Bool.not_eq_true', decide_eq_false_iff_not] at both
      exact refused both

/-- The quotient that does not fit, at a width where `eval_op` does not notice it. -/
def Unnoticed (op : BinaryOp) (unsigned : Bool) (x y : BitVec w) : Prop :=
  (op = .div ∨ op = .mod) ∧ unsigned = false ∧ x = BitVec.intMin w ∧ y = -1 ∧ w < 64

theorem evalSwitch_eq (pos : 0 < w) (le : w ≤ 64) (op : BinaryOp) (unsigned : Bool) (x y : BitVec w)
    (noticed : ¬ Unnoticed op unsigned x y) :
    (evalSwitch (op.opcode unsigned) w (x.signExtend 64) (y.signExtend 64)).map (·.setWidth w) =
      cBinop op unsigned x y := by
  have left := setWidth_signExtend le x
  have right := setWidth_signExtend le y
  have test : op = .div ∨ op = .mod → unsigned = false →
      ((w = 64 ∧ x = BitVec.intMin w) ∧ y = -1 ↔ x = BitVec.intMin w ∧ y = -1) := by
    intro divides signed
    constructor
    · exact fun both => ⟨both.1.2, both.2⟩
    · rintro ⟨smallest, minus⟩
      have wide : w = 64 := by
        by_contra narrow
        exact noticed ⟨divides, signed, smallest, minus, lt_of_le_of_ne le narrow⟩
      exact ⟨⟨wide, smallest⟩, minus⟩
  cases op with
  | add => exact congrArg some (wraps_add le left right)
  | sub => exact congrArg some (wraps_sub le left right)
  | and => exact congrArg some (wraps_and left right)
  | or => exact congrArg some (wraps_or left right)
  | xor => exact congrArg some (wraps_xor left right)
  | mul =>
    simp only [BinaryOp.opcode, evalSwitch, cBinop, signExtend_and_bitsMask pos le]
    exact congrArg some
      (wraps_mul le (setWidth_setWidth64 le x) (setWidth_setWidth64 le y))
  | div =>
    cases unsigned with
    | true =>
      simp only [BinaryOp.opcode, evalSwitch, cBinop, if_true, signExtend_and_bitsMask pos le,
        setWidth_eq_zero le]
      split_ifs
      · rfl
      · exact congrArg some (udiv_setWidth le x y)
    | false =>
      simp only [BinaryOp.opcode, evalSwitch, cBinop, Bool.false_eq_true, if_false,
        signExtend_eq_zero le, signExtend_eq_signBit pos le, signExtend_eq_neg_one pos le,
        test (.inl rfl) rfl]
      split_ifs
      · rfl
      · rfl
      · exact congrArg some (sdiv_setWidth le x y)
  | mod =>
    cases unsigned with
    | true =>
      simp only [BinaryOp.opcode, evalSwitch, cBinop, if_true, signExtend_and_bitsMask pos le,
        setWidth_eq_zero le]
      split_ifs
      · rfl
      · exact congrArg some (umod_setWidth le x y)
    | false =>
      simp only [BinaryOp.opcode, evalSwitch, cBinop, Bool.false_eq_true, if_false,
        signExtend_eq_zero le, signExtend_eq_signBit pos le, signExtend_eq_neg_one pos le,
        test (.inr rfl) rfl]
      split_ifs
      · rfl
      · rfl
      · exact congrArg some (srem_setWidth le x y)
  | leftShift =>
    simp only [BinaryOp.opcode, evalSwitch, cBinop, signExtend_and_bitsMask pos le,
      toNat_setWidth_of_le le]
    by_cases small : y.toNat < w
    · rw [if_neg (not_le.mpr small), if_pos small, toNat_signExtend_of_lt pos le small]
      exact congrArg some ((shiftLeft_setWidth le _ _).trans (by rw [left]))
    · rw [if_pos (not_lt.mp small), if_neg small]
      rfl
  | rightShift =>
    cases unsigned with
    | true =>
      simp only [BinaryOp.opcode, evalSwitch, cBinop, if_true, signExtend_and_bitsMask pos le,
        toNat_setWidth_of_le le]
      by_cases small : y.toNat < w
      · rw [if_neg (not_le.mpr small), if_pos small]
        exact congrArg some (ushiftRight_setWidth le x _)
      · rw [if_pos (not_lt.mp small), if_neg small]
        rfl
    | false =>
      simp only [BinaryOp.opcode, evalSwitch, cBinop, Bool.false_eq_true, if_false,
        signExtend_and_bitsMask pos le, toNat_setWidth_of_le le]
      by_cases small : y.toNat < w
      · rw [if_neg (not_le.mpr small), if_pos small, toNat_signExtend_of_lt pos le small]
        exact congrArg some (sshiftRight_setWidth le x _)
      · rw [if_pos (not_lt.mp small), if_neg small]
        rfl

theorem evalOp_eq (pos : 0 < w) (le : w ≤ 64) (op : BinaryOp) (unsigned : Bool) (x y : BitVec w)
    (noticed : ¬ Unnoticed op unsigned x y) :
    evalOp (op.opcode unsigned) w (x.setWidth 64) (y.setWidth 64) =
      (cBinop op unsigned x y).map (·.setWidth 64) := by
  unfold evalOp
  rw [evalOperand_setWidth pos le, evalOperand_setWidth pos le]
  exact map_and_bitsMask pos le (evalSwitch_eq pos le op unsigned x y noticed)

/-- The quotient that does not fit is folded, although it has no value. -/
theorem evalOp_unnoticed (pos : 0 < w) (le : w ≤ 64) {op : BinaryOp} {unsigned : Bool}
    {x y : BitVec w} (overflow : Unnoticed op unsigned x y) :
    evalOp (op.opcode unsigned) w (x.setWidth 64) (y.setWidth 64) ≠ none ∧
      cBinop op unsigned x y = none := by
  obtain ⟨divides, rfl, smallest, minus, narrow⟩ := overflow
  have nonzero : y ≠ 0 := by
    intro zero
    rw [← signExtend_eq_zero le, (signExtend_eq_neg_one pos le y).mpr minus] at zero
    exact absurd zero (by decide)
  have test : ¬ (x.signExtend 64 = signBit w ∧ y.signExtend 64 = -1) := by
    rintro ⟨same, -⟩
    exact narrow.ne ((signExtend_eq_signBit pos le x).mp same).1
  unfold evalOp
  rw [evalOperand_setWidth pos le, evalOperand_setWidth pos le]
  rcases divides with rfl | rfl
  · refine ⟨?_, by rw [cBinop, if_neg nonzero, if_neg (by decide), if_pos ⟨smallest, minus⟩]⟩
    simp only [BinaryOp.opcode, Bool.false_eq_true, if_false, evalSwitch, signExtend_eq_zero le,
      if_neg nonzero, if_neg test, Option.map_some]
    exact Option.some_ne_none _
  · refine ⟨?_, by rw [cBinop, if_neg nonzero, if_neg (by decide), if_pos ⟨smallest, minus⟩]⟩
    simp only [BinaryOp.opcode, Bool.false_eq_true, if_false, evalSwitch, signExtend_eq_zero le,
      if_neg nonzero, if_neg test, Option.map_some]
    exact Option.some_ne_none _

theorem ofBool_and_bitsMask (pos : 0 < w) (le : w ≤ 64) (holds : Bool) :
    ofBool holds &&& bitsMask w = ofBool holds := by
  apply BitVec.eq_of_toNat_eq
  rw [toNat_and_bitsMask pos le]
  refine Nat.mod_eq_of_lt ?_
  have one : 1 < 2 ^ w := Nat.one_lt_two_pow pos.ne'
  cases holds with
  | false => exact Nat.two_pow_pos w
  | true => exact one

section Compare

variable (le : w ≤ 64) (x y : BitVec w)

include le

theorem slt_signExtend : (x.signExtend 64).slt (y.signExtend 64) = x.slt y := by
  rw [BitVec.slt, BitVec.slt, toInt_signExtend64 le, toInt_signExtend64 le]

theorem sle_signExtend : (x.signExtend 64).sle (y.signExtend 64) = x.sle y := by
  rw [BitVec.sle, BitVec.sle, toInt_signExtend64 le, toInt_signExtend64 le]

theorem ult_setWidth : (x.setWidth 64).ult (y.setWidth 64) = x.ult y := by
  rw [BitVec.ult, BitVec.ult, toNat_setWidth_of_le le, toNat_setWidth_of_le le]

theorem ule_setWidth : (x.setWidth 64).ule (y.setWidth 64) = x.ule y := by
  rw [BitVec.ule, BitVec.ule, toNat_setWidth_of_le le, toNat_setWidth_of_le le]

theorem beq_signExtend : (x.signExtend 64 == y.signExtend 64) = (x == y) := by
  rw [Bool.eq_iff_iff, beq_iff_eq, beq_iff_eq, signExtend_inj le]

theorem beq_setWidth : (x.setWidth 64 == y.setWidth 64) = (x == y) := by
  rw [Bool.eq_iff_iff, beq_iff_eq, beq_iff_eq, setWidth_inj le]

end Compare

theorem simplifyCmpBinop_eq (pos : 0 < w) (le : w ≤ 64) (op : CompareOp) (unsigned : Bool)
    (x y : BitVec w) :
    simplifyCmpBinop op ⟨w, unsigned⟩ (x.setWidth 64) (y.setWidth 64) =
      ofBool (cCompare op x y) := by
  simp only [simplifyCmpBinop, signedOperand_setWidth pos le]
  cases op with
  | lt | gt => simp only [slt_signExtend le, cCompare]
  | lte | gte => simp only [sle_signExtend le, cCompare]
  | equal => simp only [beq_setWidth le, cCompare]
  | notequal => simp only [bne, beq_setWidth le, cCompare]
  | unsignedLt | unsignedGt => simp only [ult_setWidth le, cCompare]
  | unsignedLte | unsignedGte => simp only [ule_setWidth le, cCompare]

theorem evalOp_compare (pos : 0 < w) (le : w ≤ 64) (op : CompareOp) (x y : BitVec w) :
    evalOp op.opcode w (x.setWidth 64) (y.setWidth 64) = some (ofBool (cCompare op x y)) := by
  unfold evalOp
  rw [evalOperand_setWidth pos le, evalOperand_setWidth pos le]
  cases op with
  | lt | gt =>
    simp only [CompareOp.opcode, evalSwitch, Option.map_some, slt_signExtend le,
      ofBool_and_bitsMask pos le, cCompare]
  | lte | gte =>
    simp only [CompareOp.opcode, evalSwitch, Option.map_some, sle_signExtend le,
      ofBool_and_bitsMask pos le, cCompare]
  | equal =>
    simp only [CompareOp.opcode, evalSwitch, Option.map_some, beq_signExtend le,
      ofBool_and_bitsMask pos le, cCompare]
  | notequal =>
    simp only [CompareOp.opcode, evalSwitch, Option.map_some, bne, beq_signExtend le,
      ofBool_and_bitsMask pos le, cCompare]
  | unsignedLt | unsignedGt =>
    simp only [CompareOp.opcode, evalSwitch, Option.map_some, signExtend_and_bitsMask pos le,
      ult_setWidth le, ofBool_and_bitsMask pos le, cCompare]
  | unsignedLte | unsignedGte =>
    simp only [CompareOp.opcode, evalSwitch, Option.map_some, signExtend_and_bitsMask pos le,
      ule_setWidth le, ofBool_and_bitsMask pos le, cCompare]

inductive Operator where
  | binary (op : BinaryOp)
  | compare (op : CompareOp)
  deriving DecidableEq

def Operator.irFold (op : Operator) (unsigned : Bool) (x y : BitVec w) : Option (BitVec 64) :=
  match op with
  | .binary op => evalOp (op.opcode unsigned) w (x.setWidth 64) (y.setWidth 64)
  | .compare op => evalOp op.opcode w (x.setWidth 64) (y.setWidth 64)

def Operator.expandFold (op : Operator) (unsigned rightUnsigned : Bool) (x y : BitVec w) :
    Option (BitVec 64) :=
  match op with
  | .binary op =>
    simplifyIntBinop op ⟨w, unsigned⟩ ⟨w, rightUnsigned⟩ (x.setWidth 64) (y.setWidth 64)
  | .compare op => some (simplifyCmpBinop op ⟨w, unsigned⟩ (x.setWidth 64) (y.setWidth 64))

def Operator.value (op : Operator) (unsigned : Bool) (x y : BitVec w) : Option (BitVec 64) :=
  match op with
  | .binary op => (cBinop op unsigned x y).map (·.setWidth 64)
  | .compare op => some (ofBool (cCompare op x y))

/-- Both folders fold an operator to its value, or both refuse it for the same reasons,
except that `eval_op` folds the quotient that does not fit at less than 64 bits. -/
theorem folders_agree_iff (pos : 0 < w) (le : w ≤ 64) (op : Operator) (unsigned right : Bool)
    (x y : BitVec w) :
    (op.irFold unsigned x y = op.value unsigned x y ∧
        op.expandFold unsigned right x y = op.value unsigned x y) ↔
      ¬ ((op = .binary .div ∨ op = .binary .mod) ∧ unsigned = false ∧ x = BitVec.intMin w ∧
        y = -1 ∧ w < 64) := by
  cases op with
  | compare op =>
    refine iff_of_true ⟨evalOp_compare pos le op x y, ?_⟩ ?_
    · exact congrArg some (simplifyCmpBinop_eq pos le op unsigned x y)
    · rintro ⟨same | same, -⟩ <;> cases same
  | binary op =>
    have same : ((Operator.binary op = .binary .div ∨ Operator.binary op = .binary .mod) ∧
        unsigned = false ∧ x = BitVec.intMin w ∧ y = -1 ∧ w < 64) ↔ Unnoticed op unsigned x y := by
      unfold Unnoticed
      rw [Operator.binary.injEq, Operator.binary.injEq]
    rw [same]
    constructor
    · rintro ⟨folded, -⟩ overflow
      obtain ⟨some_, none_⟩ := evalOp_unnoticed pos le overflow
      change _ = (cBinop op unsigned x y).map (·.setWidth 64) at folded
      rw [none_] at folded
      exact some_ folded
    · intro noticed
      exact ⟨evalOp_eq pos le op unsigned x y noticed,
        simplifyIntBinop_eq pos le op unsigned right x y⟩

/-- `-128 / 1` at 8 bits. -/
theorem folders_agree_quotient :
    0 < 8 ∧ 8 ≤ 64 ∧
      (Operator.binary .div).irFold false (128 : BitVec 8) 1 =
        (Operator.binary .div).value false (128 : BitVec 8) 1 ∧
      (Operator.binary .div).expandFold false false (128 : BitVec 8) 1 =
        (Operator.binary .div).value false (128 : BitVec 8) 1 :=
  ⟨by decide, by decide, (folders_agree_iff (by decide) (by decide) (.binary .div) false false
    (128 : BitVec 8) 1).mpr (by decide)⟩

/-- `INT_MIN / -1` at 32 bits. -/
theorem folders_differ_int :
    (Operator.binary .div).irFold false (BitVec.intMin 32) (-1) = some 0x80000000 ∧
      (Operator.binary .div).expandFold false false (BitVec.intMin 32) (-1) = none ∧
      (Operator.binary .div).value false (BitVec.intMin 32) (-1) = none := by
  decide

end SmatchFormal.Expand
