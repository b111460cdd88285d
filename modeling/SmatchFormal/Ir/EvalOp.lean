import SmatchFormal.Ir.Basic
import SmatchFormal.Ir.Bits

/-!
# Folding constants in linearized code

`eval_op` of `simplify.c` works on `long long` values.  It extends both operands with
their sign bit, and computes at 64 bits what the instruction computes at its size.

Each bit of the value of an instruction is given as bits of its operands.  A rule that moves masks,
shifts and casts past each other then is about positions of bits.
-/

namespace SmatchFormal.Ir

def evalOperand (size : Nat) (value : BitVec 64) : BitVec 64 :=
  if value &&& signBit size ≠ 0 then value ||| ~~~bitsMask size else value

def ofBool (holds : Bool) : BitVec 64 := if holds then 1 else 0

/-- The switch of `eval_op`; `none` is `undef`, or an opcode that is not folded. -/
def evalSwitch (op : Opcode) (size : Nat) (left right : BitVec 64) : Option (BitVec 64) :=
  let mask := signBit size
  let bits := bitsMask size
  let ul := left &&& bits
  let ur := right &&& bits
  match op with
  | .neg => some (-left)
  | .not => some (~~~ul)
  | .add => some (left + right)
  | .sub => some (left - right)
  | .mul => some (ul * ur)
  | .divu => if ur = 0 then none else some (ul / ur)
  | .divs =>
    if right = 0 then none
    else if left = mask ∧ right = -1 then none
    else some (left.sdiv right)
  | .modu => if ur = 0 then none else some (ul % ur)
  | .mods =>
    if right = 0 then none
    else if left = mask ∧ right = -1 then none
    else some (left.srem right)
  | .shl => if size ≤ ur.toNat then none else some (left <<< right.toNat)
  | .lsr => if size ≤ ur.toNat then none else some (ul >>> ur.toNat)
  | .asr => if size ≤ ur.toNat then none else some (left.sshiftRight right.toNat)
  | .and => some (left &&& right)
  | .or => some (left ||| right)
  | .xor => some (left ^^^ right)
  | .setEq => some (ofBool (left == right))
  | .setNe => some (ofBool (left != right))
  | .setLe => some (ofBool (left.sle right))
  | .setGe => some (ofBool (right.sle left))
  | .setLt => some (ofBool (left.slt right))
  | .setGt => some (ofBool (right.slt left))
  | .setB => some (ofBool (ul.ult ur))
  | .setA => some (ofBool (ur.ult ul))
  | .setBe => some (ofBool (ul.ule ur))
  | .setAe => some (ofBool (ur.ule ul))
  | .trunc | .zext | .sext | .sel => none

def evalOp (op : Opcode) (size : Nat) (src1 src2 : BitVec 64) : Option (BitVec 64) :=
  (evalSwitch op size (evalOperand size src1) (evalOperand size src2)).map (· &&& bitsMask size)

section Operands

variable {size : Nat}

/-- Operands of the size are extended with their sign. -/
theorem evalOperand_setWidth (pos : 0 < size) (le : size ≤ 64) (x : BitVec size) :
    evalOperand size (x.setWidth 64) = x.signExtend 64 := by
  unfold evalOperand
  by_cases sign : x.msb = true
  · rw [if_pos ((and_signBit_ne_zero pos le x).mpr sign), or_not_bitsMask pos le sign]
  · rw [if_neg fun set => sign ((and_signBit_ne_zero pos le x).mp set),
      signExtend_of_msb_false (Bool.not_eq_true _ |>.mp sign)]

theorem setWidth_signExtend (le : size ≤ 64) (x : BitVec size) :
    (x.signExtend 64).setWidth size = x := by
  apply BitVec.eq_of_getLsbD_eq
  intro i inside
  rw [BitVec.getLsbD_setWidth, BitVec.getLsbD_signExtend, if_pos inside,
    decide_eq_true inside, decide_eq_true (inside.trans_le le), Bool.true_and, Bool.true_and]

theorem signExtend_and_bitsMask (pos : 0 < size) (le : size ≤ 64) (x : BitVec size) :
    x.signExtend 64 &&& bitsMask size = x.setWidth 64 := by
  rw [and_bitsMask pos le, setWidth_signExtend le]

end Operands

section Bits

variable {insn : Instruction} (v1 v2 v3 i : Nat)

theorem testBit_toNat {w : Nat} (x : BitVec w) : x.toNat.testBit i = x.getLsbD i := rfl

theorem testBit_and (opcode : insn.opcode = .and) :
    (insn.eval v1 v2 v3).testBit i =
      (decide (i < insn.size) && (v1.testBit i && v2.testBit i)) := by
  simp only [Instruction.eval, opcode, testBit_toNat, BitVec.getLsbD_and, BitVec.getLsbD_ofNat]
  cases decide (i < insn.size) <;> simp

theorem testBit_or (opcode : insn.opcode = .or) :
    (insn.eval v1 v2 v3).testBit i =
      (decide (i < insn.size) && (v1.testBit i || v2.testBit i)) := by
  simp only [Instruction.eval, opcode, testBit_toNat, BitVec.getLsbD_or, BitVec.getLsbD_ofNat]
  cases decide (i < insn.size) <;> simp

theorem testBit_not (opcode : insn.opcode = .not) :
    (insn.eval v1 v2 v3).testBit i = (decide (i < insn.size) && !v1.testBit i) := by
  simp only [Instruction.eval, opcode, testBit_toNat, BitVec.getLsbD_not, BitVec.getLsbD_ofNat]
  cases decide (i < insn.size) <;> simp

theorem testBit_shl (opcode : insn.opcode = .shl) :
    (insn.eval v1 v2 v3).testBit i =
      (decide (i < insn.size) && (decide (v2 ≤ i) && v1.testBit (i - v2))) := by
  simp only [Instruction.eval, opcode, testBit_toNat, BitVec.getLsbD_shiftLeft,
    BitVec.getLsbD_ofNat]
  by_cases inside : i < insn.size
  · have less : i - v2 < insn.size := by omega
    by_cases low : i < v2
    · simp [inside, low]
    · simp [inside, less, low, not_lt.mp low]
  · simp [inside]

theorem testBit_lsr (opcode : insn.opcode = .lsr) :
    (insn.eval v1 v2 v3).testBit i = (decide (v2 + i < insn.size) && v1.testBit (v2 + i)) := by
  simp only [Instruction.eval, opcode, testBit_toNat, BitVec.getLsbD_ushiftRight,
    BitVec.getLsbD_ofNat]

theorem testBit_asr (opcode : insn.opcode = .asr) (pos : 0 < insn.size) :
    (insn.eval v1 v2 v3).testBit i =
      (decide (i < insn.size) && v1.testBit (min (v2 + i) (insn.size - 1))) := by
  simp only [Instruction.eval, opcode, testBit_toNat, BitVec.getLsbD_sshiftRight,
    BitVec.getLsbD_ofNat, BitVec.msb_eq_getLsbD_last]
  by_cases inside : i < insn.size
  · by_cases low : v2 + i < insn.size
    · simp [inside, low, Nat.min_eq_left (show v2 + i ≤ insn.size - 1 by omega)]
    · simp [inside, low, pos, Nat.min_eq_right (show insn.size - 1 ≤ v2 + i by omega)]
  · simp [inside, not_lt.mp inside]

theorem testBit_zext (opcode : insn.opcode = .trunc ∨ insn.opcode = .zext) :
    (insn.eval v1 v2 v3).testBit i =
      (decide (i < insn.size) && (decide (i < insn.itype) && v1.testBit i)) := by
  rcases opcode with opcode | opcode <;>
    simp only [Instruction.eval, opcode, testBit_toNat, BitVec.getLsbD_setWidth,
      BitVec.getLsbD_ofNat]

theorem testBit_sext (opcode : insn.opcode = .sext) (pos : 0 < insn.itype) :
    (insn.eval v1 v2 v3).testBit i =
      (decide (i < insn.size) && v1.testBit (min i (insn.itype - 1))) := by
  simp only [Instruction.eval, opcode, testBit_toNat, BitVec.getLsbD_signExtend,
    BitVec.getLsbD_ofNat, BitVec.msb_eq_getLsbD_last]
  by_cases low : i < insn.itype
  · simp [low, Nat.min_eq_left (show i ≤ insn.itype - 1 by omega)]
  · simp [low, pos, Nat.min_eq_right (show insn.itype - 1 ≤ i by omega)]

end Bits

section Masks

variable {size : Nat} (i : Nat)

theorem getLsbD_bitsMask (pos : 0 < size) (le : size ≤ 64) :
    (bitsMask size).getLsbD i = decide (i < size) := by
  unfold BitVec.getLsbD
  rw [toNat_bitsMask pos le, Nat.testBit_two_pow_sub_one]

theorem getLsbD_lowMask (less : size < 64) :
    ((1#64 <<< size) - 1).getLsbD i = decide (i < size) := by
  have number : ((1#64 <<< size) - 1).toNat = 2 ^ size - 1 := by
    have bit : (1#64 <<< size).toNat = 2 ^ size := BitVec.toNat_twoPow_of_lt less
    have positive : 0 < 2 ^ size := Nat.two_pow_pos size
    rw [BitVec.toNat_sub_of_le]
    · rw [bit]
      rfl
    · rw [BitVec.le_def, bit]
      exact positive
  unfold BitVec.getLsbD
  rw [number, Nat.testBit_two_pow_sub_one]

theorem mod_two_pow_eq_iff {x y : Nat} :
    x % 2 ^ size = y % 2 ^ size ↔ ∀ i < size, x.testBit i = y.testBit i := by
  constructor
  · intro same i inside
    have bit := congrArg (Nat.testBit · i) same
    simpa only [Nat.testBit_mod_two_pow, decide_eq_true inside, Bool.true_and] using bit
  · intro same
    apply Nat.eq_of_testBit_eq
    intro i
    rw [Nat.testBit_mod_two_pow, Nat.testBit_mod_two_pow]
    by_cases inside : i < size
    · rw [same i inside]
    · rw [decide_eq_false inside, Bool.false_and, Bool.false_and]

end Masks

end SmatchFormal.Ir
