import SmatchFormal.Ir.CompareRules
import SmatchFormal.Ir.SelectSound

/-!
# Comparisons of a masked or extended value

The second switch of `simplify_compare_constant` uses what the definition of the left
operand says about its value.
-/

namespace SmatchFormal.Ir

/-- The second switch keeps what the comparison says, where `possible x a` holds when the left
operand can have the value `a` while the operand of its definition has the value `x`.  The
step that edits the definition is not of this kind. -/
def SecondStep.Right (half halfOrig : Nat) (possible : Nat → Nat → Prop) (opcode : Opcode)
    (v : Nat) : SecondStep → Prop
  | .keep => True
  | .mask => False
  | .constant result => (result = 0 ∨ result = 1) ∧
      ∀ x a, possible x a → (result = 1 ↔ opcode.Holds half a v)
  | .edit opcode' value => opcode'.isCompare = true ∧ value.toNat < 2 * half ∧
      ∀ x a, possible x a → (opcode'.Holds half a value.toNat ↔ opcode.Holds half a v)
  | .narrow opcode' value => opcode'.isCompare = true ∧ value.toNat < 2 * halfOrig ∧
      ∀ x a, possible x a → (opcode'.Holds halfOrig x value.toNat ↔ opcode.Holds half a v)

def SecondStep.opposite : SecondStep → SecondStep
  | .keep => .keep
  | .constant result => .constant (if result = 1 then 0 else 1)
  | .edit opcode value => .edit opcode.opposite value
  | .narrow opcode value => .narrow opcode.opposite value
  | .mask => .mask

section Second

variable {half halfOrig v : Nat} {possible : Nat → Nat → Prop} {opcode : Opcode}

theorem SecondStep.Right.opposite {step : SecondStep} (compare : opcode.isCompare = true)
    (right : step.Right half halfOrig possible opcode v) :
    step.opposite.Right half halfOrig possible opcode.opposite v := by
  cases step with
  | keep => trivial
  | mask => exact right
  | constant result =>
    obtain ⟨known, equivalent⟩ := right
    rcases known with rfl | rfl
    · refine ⟨Or.inr rfl, fun x a here => ?_⟩
      rw [holds_opposite compare, ← equivalent x a here]
      decide
    · refine ⟨Or.inl rfl, fun x a here => ?_⟩
      rw [holds_opposite compare, ← equivalent x a here]
      decide
  | edit opcode' value =>
    refine ⟨isCompare_opposite right.1, right.2.1, fun x a here => ?_⟩
    rw [holds_opposite right.1, holds_opposite compare, right.2.2 x a here]
  | narrow opcode' value =>
    refine ⟨isCompare_opposite right.1, right.2.1, fun x a here => ?_⟩
    rw [holds_opposite right.1, holds_opposite compare, right.2.2 x a here]

theorem SecondStep.never_right (never : ∀ x a, possible x a → ¬opcode.Holds half a v) :
    (SecondStep.constant 0).Right half halfOrig possible opcode v :=
  ⟨Or.inl rfl, fun x a here => iff_of_false (by decide) (never x a here)⟩

theorem SecondStep.always_right (always : ∀ x a, possible x a → opcode.Holds half a v) :
    (SecondStep.constant 1).Right half halfOrig possible opcode v :=
  ⟨Or.inr rfl, fun x a here => iff_of_true rfl (always x a here)⟩

end Second

section Masks

variable {size : Nat} {bits value : BitVec 64} {opcode : Opcode} {halfOrig : Nat}

def MaskedBy (bits : BitVec 64) (_x a : Nat) : Prop := a &&& bits.toNat = a

theorem MaskedBy.le {x a : Nat} (masked : MaskedBy bits x a) : a ≤ bits.toNat := by
  rw [← masked]
  exact Nat.and_le_right

theorem signedNumber_of_lt {half a : Nat} (below : a < half) : signedNumber half a = a :=
  if_pos below

theorem toInt_signExtend_pred (pos : 0 < size) (le : size ≤ 64) (small : value.toNat < 2 ^ size)
    (reaches : value.toNat = 0 ∨ 2 ^ (size - 1) + 1 < value.toNat) :
    (signExtend value size - 1).toInt = signedNumber (2 ^ (size - 1)) value.toNat - 1 ∧
      signedNumber (2 ^ (size - 1)) value.toNat ≤ 0 := by
  have bound := half_le le
  have positive := half_pos size
  have double := two_pow_pred pos
  have range : -2 ^ 63 < signedNumber (2 ^ (size - 1)) value.toNat ∧
      signedNumber (2 ^ (size - 1)) value.toNat ≤ 0 := by
    unfold signedNumber
    split_ifs <;> omega
  refine ⟨?_, range.2⟩
  rw [BitVec.toInt_sub, toInt_signExtend_of_lt pos le small]
  change (_ - 1 : Int).bmod _ = _
  exact Int.bmod_eq_of_le_mul_two (by omega) (by omega)

theorem secondAnd_setEq_right (smallBits : bits.toNat < 2 ^ size) (pos : 0 < size) :
    (secondAnd size bits .setEq value).Right (2 ^ (size - 1)) halfOrig (MaskedBy bits) .setEq
      value.toNat := by
  have double := two_pow_pred pos
  have positive := half_pos size
  dsimp only [secondAnd]
  split_ifs with outside single
  · refine SecondStep.never_right fun x a masked same => outside ?_
    apply BitVec.eq_of_toNat_eq
    rw [BitVec.toNat_and, ← show a = value.toNat from same]
    exact masked
  · obtain ⟨rfl, power⟩ := single
    refine ⟨rfl, show 0 < _ by omega, fun x a masked => ?_⟩
    have number := toNat_of_isPowerOf2 power
    change a ≠ 0 ↔ a = value.toNat
    unfold MaskedBy at masked
    rw [number, Nat.and_two_pow] at masked
    have bit := Nat.two_pow_pos (log2Exact value)
    rw [number, ← masked]
    cases a.testBit (log2Exact value) with
    | false => exact iff_of_false (fun ne => ne (Nat.zero_mul _)) (by rw [Bool.toNat_false]; omega)
    | true => exact iff_of_true (by rw [Bool.toNat_true]; omega) (Nat.one_mul _)
  · trivial

theorem secondAnd_setNe_eq : secondAnd size bits .setNe value =
    (secondAnd size bits .setEq value).opposite := by
  dsimp only [secondAnd]
  split_ifs <;> rfl

theorem secondAnd_setLe_right (pos : 0 < size) (le : size ≤ 64)
    (smallBits : bits.toNat < 2 ^ size) (below : value.toNat < 2 ^ (size - 1)) :
    (secondAnd size bits .setLe value).Right (2 ^ (size - 1)) halfOrig (MaskedBy bits) .setLe
      value.toNat := by
  have double := two_pow_pred pos
  have bound := half_le le
  have small : value.toNat < 2 ^ size := by omega
  have number := toInt_signExtend_of_lt pos le small
  rw [signedNumber_of_lt below] at number
  dsimp only [secondAnd]
  simp only [reduceCtorEq, if_false, ne_eq, and_signBit_eq_zero_iff pos le smallBits, not_lt]
  split_ifs with sign negative above zero
  · trivial
  · exact absurd negative (by rw [number]; omega)
  · have bitsNumber : bits.toInt = bits.toNat := BitVec.toInt_eq_toNat_of_lt (by omega)
    rw [number, bitsNumber] at above
    refine SecondStep.always_right fun x a masked => ?_
    have most := masked.le
    change signedNumber _ a ≤ signedNumber _ _
    rw [signedNumber_of_lt below, signedNumber_of_lt (by omega)]
    omega
  · rw [zero] at number
    refine ⟨rfl, by omega, fun x a masked => ?_⟩
    have most := masked.le
    change a = _ ↔ signedNumber _ a ≤ signedNumber _ _
    rw [signedNumber_of_lt below, signedNumber_of_lt (by omega), ← number]
    change _ ↔ (a : Int) ≤ 0
    have none : value.toNat = 0 := by
      change (0 : Int) = _ at number
      omega
    omega
  · trivial

theorem secondAnd_setLt_right (pos : 0 < size) (le : size ≤ 64)
    (smallBits : bits.toNat < 2 ^ size) (small : value.toNat < 2 ^ size)
    (reaches : value.toNat = 0 ∨ 2 ^ (size - 1) + 1 < value.toNat) :
    (secondAnd size bits .setLt value).Right (2 ^ (size - 1)) halfOrig (MaskedBy bits) .setLt
      value.toNat := by
  obtain ⟨number, most⟩ := toInt_signExtend_pred pos le small reaches
  dsimp only [secondAnd]
  simp only [if_true, ne_eq, and_signBit_eq_zero_iff pos le smallBits, not_lt]
  split_ifs with sign negative
  · trivial
  · refine SecondStep.never_right fun x a masked => ?_
    have top := masked.le
    change ¬signedNumber _ a < signedNumber _ _
    rw [signedNumber_of_lt (by omega)]
    omega
  all_goals exact absurd (by rw [number]; omega) negative

theorem secondAnd_opposite_signed : secondAnd size bits .setGt value =
      (secondAnd size bits .setLe value).opposite ∧
    secondAnd size bits .setGe value = (secondAnd size bits .setLt value).opposite := by
  dsimp only [secondAnd]
  simp only [reduceCtorEq, if_false, if_true]
  constructor <;> split_ifs <;> rfl

/-- Every case for a masked value that is reached is right. -/
theorem secondAnd_right (pos : 0 < size) (le : size ≤ 64) (smallBits : bits.toNat < 2 ^ size)
    (small : value.toNat < 2 ^ size) (reaches : opcode.Reaches (2 ^ (size - 1)) value.toNat) :
    (secondAnd size bits opcode value).Right (2 ^ (size - 1)) halfOrig (MaskedBy bits) opcode
      value.toNat := by
  have unsigned : (secondAnd size bits .setBe value).Right (2 ^ (size - 1)) halfOrig
      (MaskedBy bits) .setBe value.toNat := by
    dsimp only [secondAnd]
    split_ifs with above
    · exact SecondStep.always_right fun x a masked => masked.le.trans above
    · trivial
  cases opcode with
  | setEq => exact secondAnd_setEq_right smallBits pos
  | setNe =>
    rw [secondAnd_setNe_eq]
    exact (secondAnd_setEq_right smallBits pos).opposite rfl
  | setLe => exact secondAnd_setLe_right pos le smallBits reaches
  | setLt => exact secondAnd_setLt_right pos le smallBits small reaches
  | setGt =>
    rw [secondAnd_opposite_signed.1]
    exact (secondAnd_setLe_right pos le smallBits reaches).opposite rfl
  | setGe =>
    rw [secondAnd_opposite_signed.2]
    exact (secondAnd_setLt_right pos le smallBits small reaches).opposite rfl
  | setBe => exact unsigned
  | setA =>
    have same : secondAnd size bits .setA value =
        (secondAnd size bits .setBe value).opposite := by
      dsimp only [secondAnd]
      split_ifs <;> rfl
    rw [same]
    exact unsigned.opposite rfl
  | _ => cases reaches

end Masks

section SetBits

variable {size : Nat} {bits value : BitVec 64} {opcode : Opcode} {halfOrig : Nat}

def SetBy (half : Nat) (bits : BitVec 64) (_x a : Nat) : Prop :=
  a < 2 * half ∧ a &&& bits.toNat = bits.toNat

theorem SetBy.le {half x a : Nat} (set : SetBy half bits x a) : bits.toNat ≤ a := by
  rw [← set.2]
  exact Nat.and_le_left

theorem signedNumber_of_ge {half a : Nat} (above : half ≤ a) :
    signedNumber half a = (a : Int) - 2 * half :=
  if_neg (not_lt.mpr above)

theorem secondOr_setEq_right :
    (secondOr size bits .setEq value).Right (2 ^ (size - 1)) halfOrig
      (SetBy (2 ^ (size - 1)) bits) .setEq value.toNat := by
  dsimp only [secondOr]
  split_ifs with outside
  · refine SecondStep.never_right fun x a set same => outside ?_
    apply BitVec.eq_of_toNat_eq
    rw [BitVec.toNat_and, ← show a = value.toNat from same]
    exact set.2
  · trivial

theorem secondOr_setLe_right (pos : 0 < size) (le : size ≤ 64)
    (smallBits : bits.toNat < 2 ^ size) (below : value.toNat < 2 ^ (size - 1)) :
    (secondOr size bits .setLe value).Right (2 ^ (size - 1)) halfOrig
      (SetBy (2 ^ (size - 1)) bits) .setLe value.toNat := by
  dsimp only [secondOr]
  simp only [reduceCtorEq, if_false, ne_eq, and_signBit_eq_zero_iff pos le smallBits, not_lt]
  split_ifs with sign
  · refine SecondStep.always_right fun x a set => ?_
    have least := set.le
    have most := set.1
    change signedNumber _ a ≤ signedNumber _ _
    rw [signedNumber_of_lt below, signedNumber_of_ge (sign.1.trans least)]
    omega
  · trivial

/-- The constant of a strict comparison with a negative value. -/
theorem toInt_signExtend_pred_lt (pos : 0 < size) (le : size ≤ 64)
    (small : value.toNat < 2 ^ size) (above : 2 ^ (size - 1) + 1 < value.toNat) :
    (signExtend (value - 1) size).toInt < -1 := by
  have double := two_pow_pred pos
  have less : (value - 1).toNat = value.toNat - 1 := by
    rw [BitVec.toNat_sub_of_le (by rw [BitVec.le_def]; change 1 ≤ _; omega)]
    rfl
  rw [toInt_signExtend_of_lt pos le (by omega), signedNumber_of_ge (by omega)]
  omega

theorem secondOr_setLt_right (pos : 0 < size) (le : size ≤ 64)
    (smallBits : bits.toNat < 2 ^ size) (small : value.toNat < 2 ^ size)
    (reaches : value.toNat = 0 ∨ 2 ^ (size - 1) + 1 < value.toNat) :
    (secondOr size bits .setLt value).Right (2 ^ (size - 1)) halfOrig
      (SetBy (2 ^ (size - 1)) bits) .setLt value.toNat := by
  dsimp only [secondOr]
  simp only [if_true, ne_eq, and_signBit_eq_zero_iff pos le smallBits, not_lt]
  split_ifs with sign
  · rcases reaches with zero | above
    · refine SecondStep.always_right fun x a set => ?_
      have least := set.le
      have most := set.1
      change signedNumber _ a < signedNumber _ _
      rw [zero, signedNumber_of_lt (half_pos size), signedNumber_of_ge (sign.1.trans least)]
      omega
    · exact absurd sign.2 (not_le.mpr (toInt_signExtend_pred_lt pos le small above))
  · trivial

theorem secondOr_opposite : secondOr size bits .setNe value =
      (secondOr size bits .setEq value).opposite ∧
    secondOr size bits .setGt value = (secondOr size bits .setLe value).opposite ∧
    secondOr size bits .setGe value = (secondOr size bits .setLt value).opposite := by
  dsimp only [secondOr]
  simp only [reduceCtorEq, if_false, if_true]
  refine ⟨?_, ?_, ?_⟩ <;> split_ifs <;> rfl

/-- Every case for a value with set bits is right but one: `(x | C) > C` is not always true. -/
theorem secondOr_right (pos : 0 < size) (le : size ≤ 64) (smallBits : bits.toNat < 2 ^ size)
    (small : value.toNat < 2 ^ size) (reaches : opcode.Reaches (2 ^ (size - 1)) value.toNat)
    (other : ¬(opcode = .setA ∧ bits = value)) :
    (secondOr size bits opcode value).Right (2 ^ (size - 1)) halfOrig
      (SetBy (2 ^ (size - 1)) bits) opcode value.toNat := by
  cases opcode with
  | setEq => exact secondOr_setEq_right
  | setNe =>
    rw [secondOr_opposite.1]
    exact secondOr_setEq_right.opposite rfl
  | setLe => exact secondOr_setLe_right pos le smallBits reaches
  | setLt => exact secondOr_setLt_right pos le smallBits small reaches
  | setGt =>
    rw [secondOr_opposite.2.1]
    exact (secondOr_setLe_right pos le smallBits reaches).opposite rfl
  | setGe =>
    rw [secondOr_opposite.2.2]
    exact (secondOr_setLt_right pos le smallBits small reaches).opposite rfl
  | setBe =>
    dsimp only [secondOr]
    split_ifs with above
    · refine SecondStep.never_right fun x a set => ?_
      exact not_le.mpr (Nat.lt_of_lt_of_le above set.le)
    · trivial
  | setA =>
    dsimp only [secondOr]
    split_ifs with above
    · refine SecondStep.always_right fun x a set => ?_
      have least := set.le
      have different : bits.toNat ≠ value.toNat :=
        fun same => other ⟨rfl, BitVec.eq_of_toNat_eq same⟩
      have most : value.toNat ≤ bits.toNat := above
      change _ < a
      omega
    · trivial
  | _ => cases reaches

end SetBits

section Extended

variable {size osize : Nat} {value : BitVec 64} {opcode : Opcode}

def SextOf (half halfOrig : Nat) (x a : Nat) : Prop :=
  x < 2 * halfOrig ∧ a = if x < halfOrig then x else x + 2 * half - 2 * halfOrig

def ZextOf (halfOrig : Nat) (x a : Nat) : Prop := x < 2 * halfOrig ∧ a = x

theorem widths_le (narrow : 0 < osize) (wider : osize < size) :
    2 * 2 ^ (osize - 1) ≤ 2 ^ (size - 1) := by
  rw [← two_pow_pred narrow]
  exact Nat.pow_le_pow_right (by decide) (by omega)

theorem toNat_zeroExtend (pos : 0 < osize) (le : osize ≤ 64) :
    (zeroExtend value osize).toNat = value.toNat % 2 ^ osize :=
  toNat_and_bitsMask pos le value

theorem toInt_bitsExtend (pos : 0 < osize) (le : osize ≤ 64) :
    (bitsExtend value osize true).toInt =
      signedNumber (2 ^ (osize - 1)) (value.toNat % 2 ^ osize) := by
  have number := @toNat_zeroExtend osize value pos le
  have small : (zeroExtend value osize).toNat < 2 ^ osize := by
    rw [number]
    exact Nat.mod_lt _ (Nat.two_pow_pos osize)
  unfold bitsExtend
  rw [if_pos rfl, toInt_signExtend_of_lt pos le small, number]

/-- The low bits of a constant that the narrow type can hold as well. -/
theorem mod_of_signed (narrow : 0 < osize) (wider : osize < size) {v : Nat} (small : v < 2 ^ size)
    (fits : v < 2 ^ (osize - 1) ∨ 2 ^ size ≤ v + 2 ^ (osize - 1)) :
    v % 2 ^ osize = if v < 2 ^ (osize - 1) then v else v + 2 ^ osize - 2 ^ size := by
  have double := two_pow_pred narrow
  have order := widths_le narrow wider
  have doubleSize := two_pow_pred (narrow.trans wider)
  split_ifs with low
  · exact Nat.mod_eq_of_lt (by omega)
  · have high : 2 ^ size ≤ v + 2 ^ (osize - 1) := fits.resolve_left low
    obtain ⟨parts, whole⟩ := Nat.pow_dvd_pow 2 wider.le
    have one : 0 < parts := by
      refine Nat.pos_of_ne_zero fun zero => ?_
      rw [zero, Nat.mul_zero] at whole
      exact absurd whole (Nat.two_pow_pos size).ne'
    have split : v = v + 2 ^ osize - 2 ^ size + 2 ^ osize * (parts - 1) := by
      rw [Nat.mul_sub, ← whole, Nat.mul_one]
      omega
    conv_lhs => rw [split, Nat.add_mul_mod_self_left]
    exact Nat.mod_eq_of_lt (by omega)

theorem isSignedConstant_iff (narrow : 0 < osize) (wider : osize < size) (le : size ≤ 64)
    (small : value.toNat < 2 ^ size) :
    isSignedConstant value osize size = true ↔
      value.toNat < 2 ^ (osize - 1) ∨ 2 ^ size ≤ value.toNat + 2 ^ (osize - 1) := by
  have double := two_pow_pred narrow
  have doubleSize := two_pow_pred (narrow.trans wider)
  have order := widths_le narrow wider
  unfold isSignedConstant
  rw [beq_iff_eq, ← BitVec.toInt_inj, toInt_bitsExtend narrow (wider.le.trans le),
    toInt_bitsExtend (narrow.trans wider) le, Nat.mod_eq_of_lt small]
  constructor
  · intro same
    have bound := Nat.mod_lt value.toNat (Nat.two_pow_pos osize)
    unfold signedNumber at same
    split_ifs at same <;> omega
  · intro fits
    rw [mod_of_signed narrow wider small fits]
    unfold signedNumber
    split_ifs <;> omega

/-- The constant is on one side of all possible values. -/
theorem SecondStep.side_right {half halfOrig v : Nat} {possible : Nat → Nat → Prop} {above : Prop}
    [Decidable above]
    (less : above → ∀ x a, possible x a → signedNumber half a < signedNumber half v)
    (more : ¬above → ∀ x a, possible x a → signedNumber half v < signedNumber half a) :
    (if above then SecondStep.constant 1 else .constant 0).Right half halfOrig possible .setLt v ∧
      (if above then SecondStep.constant 1 else .constant 0).Right half halfOrig possible .setLe
        v := by
  by_cases side : above
  · rw [if_pos side]
    exact ⟨always_right fun x a here => less side x a here,
      always_right fun x a here => (less side x a here).le⟩
  · rw [if_neg side]
    exact ⟨never_right fun x a here => (more side x a here).not_gt,
      never_right fun x a here => (more side x a here).not_ge⟩

section

variable (narrow : 0 < osize) (wider : osize < size) (le : size ≤ 64)
  (small : value.toNat < 2 ^ size) (compare : opcode.isCompare = true)
include narrow wider le small compare

/-- The constant is a value of the narrow type. -/
theorem secondSext_narrow_right
    (fits : value.toNat < 2 ^ (osize - 1) ∨ 2 ^ size ≤ value.toNat + 2 ^ (osize - 1)) :
    (SecondStep.narrow opcode (zeroExtend value osize)).Right (2 ^ (size - 1)) (2 ^ (osize - 1))
      (SextOf (2 ^ (size - 1)) (2 ^ (osize - 1))) opcode value.toNat := by
  have double := two_pow_pred narrow
  have doubleSize := two_pow_pred (narrow.trans wider)
  have order := widths_le narrow wider
  have number := @toNat_zeroExtend osize value narrow (wider.le.trans le)
  rw [mod_of_signed narrow wider small fits] at number
  refine ⟨compare, ?_, ?_⟩
  · rw [number]
    split_ifs <;> omega
  · rintro x a ⟨below, rfl⟩
    rw [number]
    cases opcode with
    | setEq | setNe | setB | setBe | setAe | setA =>
      dsimp only [Opcode.Holds]
      split_ifs <;> omega
    | setLt | setLe | setGe | setGt =>
      dsimp only [Opcode.Holds, signedNumber]
      split_ifs <;> omega
    | _ => cases compare

theorem secondSext_right :
    (secondSext size osize opcode value).Right (2 ^ (size - 1)) (2 ^ (osize - 1))
      (SextOf (2 ^ (size - 1)) (2 ^ (osize - 1))) opcode value.toNat := by
  have double := two_pow_pred narrow
  have doubleSize := two_pow_pred (narrow.trans wider)
  have order := widths_le narrow wider
  have positive := half_pos osize
  unfold secondSext
  by_cases fits : isSignedConstant value osize size = true
  · rw [if_pos fits]
    exact secondSext_narrow_right narrow wider le small compare
      ((isSignedConstant_iff narrow wider le small).mp fits)
  · rw [if_neg fits]
    rw [isSignedConstant_iff narrow wider le small] at fits
    have top : value < signBit size ↔ value.toNat < 2 ^ (size - 1) := by
      rw [BitVec.lt_def, toNat_signBit (narrow.trans wider) le]
    have below : (SecondStep.narrow .setGe 0).Right (2 ^ (size - 1)) (2 ^ (osize - 1))
        (SextOf (2 ^ (size - 1)) (2 ^ (osize - 1))) .setBe value.toNat := by
      refine ⟨rfl, show 0 < _ by omega, ?_⟩
      rintro x a ⟨inside, rfl⟩
      change signedNumber _ x ≥ signedNumber _ 0 ↔ _ ≤ _
      unfold signedNumber
      split_ifs <;> omega
    have less := @SecondStep.side_right (2 ^ (size - 1)) (2 ^ (osize - 1)) value.toNat
      (SextOf (2 ^ (size - 1)) (2 ^ (osize - 1))) (value < signBit size) _
      (by
        rintro side x a ⟨inside, rfl⟩
        rw [top] at side
        unfold signedNumber
        split_ifs <;> omega)
      (by
        rintro side x a ⟨inside, rfl⟩
        rw [top] at side
        unfold signedNumber
        split_ifs <;> omega)
    cases opcode with
    | setBe =>
      dsimp only
      split_ifs
      · exact below
      · trivial
    | setA =>
      dsimp only
      split_ifs
      · exact below.opposite rfl
      · trivial
    | setLt => exact less.1
    | setLe => exact less.2
    | setGe =>
      have opposite := less.1.opposite rfl
      dsimp only
      split_ifs at opposite ⊢ <;> exact opposite
    | setGt =>
      have opposite := less.2.opposite rfl
      dsimp only
      split_ifs at opposite ⊢ <;> exact opposite
    | setEq | setNe | setB | setAe => trivial
    | _ => cases compare

end

theorem isCompare_unsign (compare : opcode.isCompare = true) :
    opcode.unsign.isCompare = true := by
  cases opcode <;> first | rfl | cases compare

theorem secondZext_right (narrow : 0 < osize) (wider : osize < size) (le : size ≤ 64)
    (small : value.toNat < 2 ^ size) (compare : opcode.isCompare = true) :
    (secondZext size osize opcode value).Right (2 ^ (size - 1)) (2 ^ (osize - 1))
      (ZextOf (2 ^ (osize - 1))) opcode value.toNat := by
  have double := two_pow_pred narrow
  have doubleSize := two_pow_pred (narrow.trans wider)
  have order := widths_le narrow wider
  have bound := half_le le
  have positive := half_pos osize
  have mask := toNat_bitsMask narrow (wider.le.trans le)
  have inside : value ≤ bitsMask osize ↔ value.toNat < 2 ^ osize := by
    rw [BitVec.le_def, mask]
    omega
  unfold secondZext
  by_cases fits : value ≤ bitsMask osize
  · rw [if_pos fits]
    rw [inside] at fits
    refine ⟨isCompare_unsign compare, by omega, ?_⟩
    rintro x a ⟨below, rfl⟩
    cases opcode with
    | setEq | setNe | setB | setBe | setAe | setA => exact Iff.rfl
    | setLt | setLe | setGe | setGt =>
      dsimp only [Opcode.unsign, Opcode.Holds, signedNumber]
      split_ifs <;> omega
    | _ => cases compare
  · rw [if_neg fits]
    rw [inside] at fits
    have maskNumber : (bitsMask osize).toInt = ((2 ^ osize - 1 : Nat) : Int) := by
      rw [BitVec.toInt_eq_toNat_of_lt (by omega), mask]
    have beyond : (signExtend value size).toInt > (bitsMask osize).toInt ↔
        value.toNat < 2 ^ (size - 1) := by
      rw [maskNumber, toInt_signExtend_of_lt (narrow.trans wider) le small]
      unfold signedNumber
      split_ifs <;> omega
    have less := @SecondStep.side_right (2 ^ (size - 1)) (2 ^ (osize - 1)) value.toNat
      (ZextOf (2 ^ (osize - 1)))
      ((signExtend value size).toInt > (bitsMask osize).toInt) _
      (by
        rintro side x a ⟨low, rfl⟩
        rw [beyond] at side
        unfold signedNumber
        split_ifs <;> omega)
      (by
        rintro side x a ⟨low, rfl⟩
        rw [beyond] at side
        unfold signedNumber
        split_ifs <;> omega)
    cases opcode with
    | setLt => exact less.1
    | setLe => exact less.2
    | setGe =>
      have opposite := less.1.opposite rfl
      dsimp only
      split_ifs at opposite ⊢ <;> exact opposite
    | setGt =>
      have opposite := less.2.opposite rfl
      dsimp only
      split_ifs at opposite ⊢ <;> exact opposite
    | setB | setBe =>
      refine SecondStep.always_right ?_
      rintro x a ⟨low, rfl⟩
      dsimp only [Opcode.Holds]
      omega
    | setAe | setA =>
      refine SecondStep.never_right ?_
      rintro x a ⟨low, rfl⟩
      dsimp only [Opcode.Holds]
      omega
    | setEq | setNe => trivial
    | _ => cases compare

end Extended

end SmatchFormal.Ir
