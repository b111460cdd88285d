import SmatchFormal.Ir.Select
import SmatchFormal.Ir.Bits

/-!
# Comparisons with a constant

`simplify_compare_constant` first rewrites the opcode together with the constant, and
then looks at the definition of the left operand.  `simplify_seteq_setne` comes before
it for a test for equality with zero or one.
-/

namespace SmatchFormal.Ir

namespace Opcode

def isCompare : Opcode → Bool
  | setEq | setLt | setLe | setGe | setGt | setB | setBe | setAe | setA | setNe => true
  | _ => false

def unsign : Opcode → Opcode
  | setLt => setB
  | setLe => setBe
  | setGe => setAe
  | setGt => setA
  | opcode => opcode

end Opcode

def isSignedConstant (value : BitVec 64) (osize nsize : Nat) : Bool :=
  bitsExtend value osize true == bitsExtend value nsize true

inductive FirstStep where
  /-- The instruction is replaced by a value. -/
  | constant (result : BitVec 64)
  /-- The opcode and the constant are changed, and the function returns. -/
  | done (opcode : Opcode) (value : BitVec 64)
  /-- The opcode and the constant are what the second switch sees. -/
  | further (opcode : Opcode) (value : BitVec 64)

def firstSigned (size : Nat) (opcode : Opcode) (value : BitVec 64) : FirstStep :=
  let bits := bitsMask size
  match opcode with
  | .setLt =>
    if value = 0 then .further .setLt value
    else if value = signBit size then .constant 0
    else if value = signMask size then .done .setNe value
    else if value = signBit size + 1 then .done .setEq (signBit size)
    else if value &&& signBit size = 0 then .further .setLe ((value - 1) &&& bits)
    else .further .setLt value
  | .setLe =>
    if value = 0 then .further .setLe value
    else if value = signMask size then .constant 1
    else if value = signBit size then .done .setEq value
    else if value = signMask size - 1 then .done .setNe (signMask size)
    else if value &&& signBit size ≠ 0 then .further .setLt ((value + 1) &&& bits)
    else .further .setLe value
  | .setGe =>
    if value = 0 then .further .setGe value
    else if value = signBit size then .constant 1
    else if value = signMask size then .done .setEq value
    else if value = signBit size + 1 then .done .setNe (signBit size)
    else if value &&& signBit size = 0 then .further .setGt ((value - 1) &&& bits)
    else .further .setGe value
  | .setGt =>
    if value = 0 then .further .setGt value
    else if value = signMask size then .constant 0
    else if value = signBit size then .done .setNe value
    else if value = signMask size - 1 then .done .setEq (signMask size)
    else if value &&& signBit size ≠ 0 then .further .setGe ((value + 1) &&& bits)
    else .further .setGt value
  | opcode => .further opcode value

def firstSwitch (size : Nat) (opcode : Opcode) (value : BitVec 64) : FirstStep :=
  let bits := bitsMask size
  match opcode with
  | .setB =>
    if value = 0 then .constant 0
    else if value = 1 then .done .setEq 0
    else if value = bits then .done .setNe value
    else .further .setBe ((value - 1) &&& bits)
  | .setAe =>
    if value = 0 then .constant 1
    else if value = 1 then .done .setNe 0
    else if value = bits then .done .setEq value
    else .further .setA ((value - 1) &&& bits)
  | .setBe =>
    if value = 0 then .done .setEq value
    else if value = bits then .constant 1
    else if value = bits - 1 then .done .setNe bits
    else if value = bits >>> 1 then .further .setGe 0
    else .further .setBe value
  | .setA =>
    if value = 0 then .done .setNe value
    else if value = bits then .constant 0
    else if value = bits - 1 then .done .setEq bits
    else if value = bits >>> 1 then .further .setLt 0
    else .further .setA value
  | opcode => firstSigned size opcode value

inductive SecondStep where
  /-- Nothing more is changed. -/
  | keep
  /-- The instruction is replaced by a value. -/
  | constant (result : BitVec 64)
  /-- The opcode and the constant are changed. -/
  | edit (opcode : Opcode) (value : BitVec 64)
  /-- The comparison is done on the operand of the cast, at its original type. -/
  | narrow (opcode : Opcode) (value : BitVec 64)
  /-- The definition becomes a mask of the operand of the truncation. -/
  | mask

/-- The case of `OP_AND` with a constant; `dsize` is `def->size`. -/
def secondAnd (dsize : Nat) (bits : BitVec 64) (opcode : Opcode) (value : BitVec 64) :
    SecondStep :=
  let signed := signExtend value dsize
  match opcode with
  | .setEq =>
    if value &&& bits ≠ value then .constant 0
    else if value = bits ∧ isPowerOf2 bits = true then .edit .setNe 0
    else .keep
  | .setNe =>
    if value &&& bits ≠ value then .constant 1
    else if value = bits ∧ isPowerOf2 bits = true then .edit .setEq 0
    else .keep
  | .setLe | .setLt =>
    let signed := if opcode = .setLt then signed - 1 else signed
    if bits &&& signBit dsize ≠ 0 then .keep
    else if signed.toInt < 0 then .constant 0
    else if signed.toInt ≥ bits.toInt then .constant 1
    else if signed = 0 then .edit .setEq value
    else .keep
  | .setGt | .setGe =>
    let signed := if opcode = .setGe then signed - 1 else signed
    if bits &&& signBit dsize ≠ 0 then .keep
    else if signed.toInt < 0 then .constant 1
    else if signed.toInt ≥ bits.toInt then .constant 0
    else if signed = 0 then .edit .setNe value
    else .keep
  | .setB => if value > bits then .constant 1 else .keep
  | .setBe => if value ≥ bits then .constant 1 else .keep
  | .setAe => if value > bits then .constant 0 else .keep
  | .setA => if value ≥ bits then .constant 0 else .keep
  | _ => .keep

def secondOr (dsize : Nat) (bits : BitVec 64) (opcode : Opcode) (value : BitVec 64) :
    SecondStep :=
  match opcode with
  | .setEq => if value &&& bits ≠ bits then .constant 0 else .keep
  | .setNe => if value &&& bits ≠ bits then .constant 1 else .keep
  | .setB => if bits ≥ value then .constant 0 else .keep
  | .setBe => if bits > value then .constant 0 else .keep
  | .setAe => if bits > value then .constant 1 else .keep
  | .setA => if bits ≥ value then .constant 1 else .keep
  | .setLt | .setLe =>
    let value := if opcode = .setLt then value - 1 else value
    if bits &&& signBit dsize ≠ 0 ∧ (signExtend value dsize).toInt ≥ -1 then .constant 1
    else .keep
  | .setGe | .setGt =>
    let value := if opcode = .setGe then value - 1 else value
    if bits &&& signBit dsize ≠ 0 ∧ (signExtend value dsize).toInt ≥ -1 then .constant 0
    else .keep
  | _ => .keep

def secondSext (size osize : Nat) (opcode : Opcode) (value : BitVec 64) : SecondStep :=
  if isSignedConstant value osize size then .narrow opcode (zeroExtend value osize)
  else
    match opcode with
    | .setBe => if value ≥ signBit osize then .narrow .setGe 0 else .keep
    | .setA => if value ≥ signBit osize then .narrow .setLt 0 else .keep
    | .setLt | .setLe => if value < signBit size then .constant 1 else .constant 0
    | .setGe | .setGt => if value < signBit size then .constant 0 else .constant 1
    | _ => .keep

def secondZext (size osize : Nat) (opcode : Opcode) (value : BitVec 64) : SecondStep :=
  let bits := bitsMask osize
  if value ≤ bits then .narrow opcode.unsign value
  else
    match opcode with
    | .setLt | .setLe =>
      if (signExtend value size).toInt > bits.toInt then .constant 1 else .constant 0
    | .setGe | .setGt =>
      if (signExtend value size).toInt > bits.toInt then .constant 0 else .constant 1
    | .setB | .setBe => .constant 1
    | .setAe | .setA => .constant 0
    | _ => .keep

/-- The second switch; `size` is the width of the comparison as it was at the start. -/
def secondSwitch (graph : Graph) (size reg : Nat) (inner : Instruction) (opcode : Opcode)
    (value : BitVec 64) : SecondStep :=
  match inner.opcode with
  | .and =>
    match inner.src2 with
    | .val bits => secondAnd inner.size bits opcode value
    | _ => .keep
  | .or =>
    match inner.src2 with
    | .val bits => secondOr inner.size bits opcode value
    | _ => .keep
  | .sext => secondSext size inner.itype opcode value
  | .trunc =>
    match opcode with
    | .setEq | .setNe => if graph.oneUse reg then .mask else .keep
    | _ => .keep
  | .zext => secondZext size inner.itype opcode value
  | _ => .keep

def Instruction.compareWith (insn : Instruction) (opcode : Opcode) (value : BitVec 64) :
    Instruction :=
  { insn with opcode := opcode, src2 := .val value }

/-- The effect of the second switch on the comparison `insn` that defines `target`; the left
operand is `reg`, which `inner` defines. -/
def SecondStep.apply (graph : Graph) (target : Nat) (insn : Instruction) (reg : Nat)
    (inner : Instruction) : SecondStep → Simplified
  | .keep => ⟨graph.setDef target insn, .reg target⟩
  | .constant result => ⟨graph, .val result⟩
  | .edit opcode value => ⟨graph.setDef target (insn.compareWith opcode value), .reg target⟩
  | .narrow opcode value =>
    ⟨graph.setDef target
      { insn.compareWith opcode value with itype := inner.itype, src1 := inner.src1 },
      .reg target⟩
  | .mask =>
    ⟨(graph.setDef reg
      { inner with opcode := .and, size := inner.itype, src2 := .val (bitsMask insn.itype) }).setDef
        target { insn with itype := inner.itype }, .reg target⟩

def simplifyCompareConstant (graph : Graph) (target : Nat) (insn : Instruction)
    (value : BitVec 64) : Simplified :=
  match firstSwitch insn.itype insn.opcode value with
  | .constant result => ⟨graph, .val result⟩
  | .done opcode value => ⟨graph.setDef target (insn.compareWith opcode value), .reg target⟩
  | .further opcode value =>
    match graph.def? insn.src1 with
    | some (reg, inner) =>
      (secondSwitch graph insn.itype reg inner opcode value).apply graph target
        (insn.compareWith opcode value) reg inner
    | none => ⟨graph.setDef target (insn.compareWith opcode value), .reg target⟩

/-- The cases of `simplify_seteq_setne` for masks and casts; `none` is the return of zero. -/
def seteqSetneSwitch (graph : Graph) (target : Nat) (insn : Instruction) (value : BitVec 64)
    (reg : Nat) (inner : Instruction) (inverse : Bool) : Option Simplified :=
  match inner.opcode with
  | .and =>
    if !inverse ∧ inner.size = insn.size ∧ inner.src2 = .val 1 then some ⟨graph, insn.src1⟩
    else none
  | .sext =>
    if value ≠ 0 ∧ inner.itype = 1 then none
    else
      some ⟨graph.setDef target { insn with itype := inner.itype, src1 := inner.src1 },
        .reg target⟩
  | .zext =>
    some ⟨graph.setDef target { insn with itype := inner.itype, src1 := inner.src1 },
      .reg target⟩
  | .trunc =>
    if graph.oneUse reg then
      some ⟨graph.setDef reg
        { inner with opcode := .and, size := inner.itype,
                     src2 := .val (bitsMask inner.size) }, .reg target⟩
    else none
  | _ => none

/-- `simplify_seteq_setne`, for an `OP_SET_EQ` or an `OP_SET_NE`; `none` is the return of
zero. -/
def simplifySeteqSetne (graph : Graph) (target : Nat) (insn : Instruction) (value : BitVec 64) :
    Option Simplified :=
  if value ≠ 0 ∧ value ≠ 1 then none
  else
    match graph.def? insn.src1 with
    | none => none
    | some (reg, inner) =>
      let inverse := decide (insn.opcode = .setNe ↔ value = 1)
      if !inverse ∧ inner.size = 1 ∧ insn.size = 1 then some ⟨graph, insn.src1⟩
      else if inner.opcode.isCompare then
        let opcode := if inverse then inner.opcode.negate.getD inner.opcode else inner.opcode
        some ⟨graph.setDef target
          { insn with opcode := opcode, itype := inner.itype, src1 := inner.src1,
                      src2 := inner.src2 }, .reg target⟩
      else seteqSetneSwitch graph target insn value reg inner inverse

end SmatchFormal.Ir
