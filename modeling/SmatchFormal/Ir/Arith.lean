import SmatchFormal.Ir.Shift

/-!
# Arithmetic on constants and on defined operands

`simplify_unop`, `simplify_constant_rightside`, `simplify_constant_leftside` and
`simplify_sub`.  Constants are folded by `eval_op`, at the size of the instruction.
-/

namespace SmatchFormal.Ir

def folded (op : Opcode) (size : Nat) (left right : BitVec 64) : Pseudo :=
  .val ((evalOp op size left right).getD 0)

def foldedUnop (op : Opcode) (size : Nat) (src : BitVec 64) : Pseudo := folded op size src 0

section Arithmetic

variable (graph : Graph) (target : Nat) (insn : Instruction)

def simplifyNot (inner : Instruction) : Simplified :=
  match inner.opcode with
  | .add =>
    match inner.src2 with
    | .val c =>
      graph.retarget target
        { insn with opcode := .sub, src1 := foldedUnop .not insn.size c, src2 := inner.src1 }
    | _ => ⟨graph, .reg target⟩
  | .neg => graph.retarget target { insn with opcode := .sub, src1 := inner.src1, src2 := .val 1 }
  | .not => ⟨graph, inner.src1⟩
  | .sub =>
    match inner.src1 with
    | .val c =>
      graph.retarget target
        { insn with opcode := .add, src1 := inner.src2, src2 := foldedUnop .not insn.size c }
    | _ => ⟨graph, .reg target⟩
  | .xor =>
    match inner.src2 with
    | .val c =>
      graph.retarget target
        { insn with opcode := .xor, src1 := inner.src1, src2 := foldedUnop .not insn.size c }
    | _ => ⟨graph, .reg target⟩
  | _ => ⟨graph, .reg target⟩

def simplifyNeg (inner : Instruction) : Simplified :=
  match inner.opcode with
  | .add =>
    match inner.src2 with
    | .val c =>
      graph.retarget target
        { insn with opcode := .sub, src1 := foldedUnop .neg insn.size c, src2 := inner.src1 }
    | _ => ⟨graph, .reg target⟩
  | .neg => ⟨graph, inner.src1⟩
  | .not => graph.retarget target { insn with opcode := .add, src1 := inner.src1, src2 := .val 1 }
  | .sub =>
    graph.retarget target { insn with opcode := .sub, src1 := inner.src2, src2 := inner.src1 }
  | _ => ⟨graph, .reg target⟩

def simplifyUnop : Simplified :=
  match insn.src1 with
  | .val c =>
    match simplifyConstantUnop insn c with
    | some res => ⟨graph, .val res⟩
    | none => ⟨graph, .reg target⟩
  | src =>
    match graph.def? src with
    | none => ⟨graph, .reg target⟩
    | some (_, inner) =>
      match insn.opcode with
      | .not => simplifyNot graph target insn inner
      | .neg => simplifyNeg graph target insn inner
      | _ => ⟨graph, .reg target⟩

/-- `simplify_const_rightadd`, of an addition of `d`; `none` is the return of zero. -/
def simplifyConstRightadd (d : BitVec 64) : Option Instruction :=
  match graph.def? insn.src1 with
  | none => none
  | some (_, inner) =>
    match inner.opcode, inner.src1 with
    -- `(C - y) + D --> eval(C+D) - y`
    | .sub, .val c =>
      some { insn with opcode := .sub, src1 := folded .add insn.size c d, src2 := inner.src2 }
    | _, _ => none

def neutralZero (value : BitVec 64) : Simplified :=
  if value = 0 then ⟨graph, insn.src1⟩ else ⟨graph, .reg target⟩

def constantAdd (value : BitVec 64) : Simplified :=
  if value = 0 then ⟨graph, insn.src1⟩
  else
    match simplifyConstRightadd graph insn value with
    | some new => graph.retarget target new
    | none => ⟨graph, .reg target⟩

/-- The case `OP_SUB`, which goes on with the case `OP_ADD`: that one tests the old constant. -/
def constantSub (value : BitVec 64) : Simplified :=
  let negated := (evalOp .neg insn.size value 0).getD 0
  let added := { insn with opcode := .add, src2 := .val negated }
  if value = 0 then ⟨graph, insn.src1⟩
  else
    match simplifyConstRightadd graph added negated with
    | some new => graph.retarget target new
    | none => graph.retarget target added

def simplifyMulDiv (value : BitVec 64) : Simplified :=
  if value = 1 then ⟨graph, insn.src1⟩
  else if insn.opcode = .mul ∧ value = 0 then ⟨graph, insn.src2⟩
  else if insn.opcode = .mul ∨ insn.opcode = .divs then
    if value &&& signBit insn.size = 0 then ⟨graph, .reg target⟩
    else if value ||| ~~~bitsMask insn.size = -1 then
      graph.retarget target { insn with opcode := .neg }
    else ⟨graph, .reg target⟩
  else ⟨graph, .reg target⟩

/-- `simplify_constant_rightside`, for the constant `value` on the right; `tainted` is the flag
of the instructions. -/
def simplifyConstantRightside (tainted : Nat → Bool) (value : BitVec 64) : Simplified :=
  let bits := bitsMask insn.size
  match insn.opcode with
  | .or =>
    if value &&& bits = bits then ⟨graph, insn.src2⟩ else neutralZero graph target insn value
  | .xor =>
    if value &&& bits = bits then graph.retarget target { insn with opcode := .not }
    else neutralZero graph target insn value
  | .sub => constantSub graph target insn value
  | .add => constantAdd graph target insn value
  | .asr | .shl | .lsr => (simplifyShift graph target insn (tainted target) insn.src1 value).1
  | .modu | .mods => if value = 1 then ⟨graph, .val 0⟩ else ⟨graph, .reg target⟩
  | .divu | .divs | .mul => simplifyMulDiv graph target insn value
  | .and =>
    if value = 0 then ⟨graph, insn.src2⟩
    else if value &&& bits = bits then ⟨graph, insn.src1⟩
    else simplifyConstantMask graph target insn tainted value
  | .setNe | .setEq =>
    (simplifySeteqSetne graph target insn value).getD
      (simplifyCompareConstant graph target insn value)
  | opcode =>
    if opcode.isCompare then simplifyCompareConstant graph target insn value
    else ⟨graph, .reg target⟩

def simplifyConstLeftsub (c : BitVec 64) (inner : Instruction) : Simplified :=
  match inner.opcode with
  | .add =>
    match inner.src2 with
    -- `C - (y + D) --> eval(C-D) - y`
    | .val d =>
      graph.retarget target { insn with src1 := folded .sub insn.size c d, src2 := inner.src1 }
    | _ => ⟨graph, .reg target⟩
  | .sub =>
    match inner.src1 with
    -- `C - (D - z) --> z + eval(C-D)`
    | .val d =>
      graph.retarget target
        { insn with opcode := .add, src1 := inner.src2, src2 := folded .sub insn.size c d }
    | _ => ⟨graph, .reg target⟩
  | _ => ⟨graph, .reg target⟩

def replaceWithNeg (src : Pseudo) : Simplified :=
  graph.retarget target { insn with opcode := .neg, src1 := src }

def simplifyConstantLeftside (value : BitVec 64) : Simplified :=
  match insn.opcode with
  | .add | .or | .xor => if value = 0 then ⟨graph, insn.src2⟩ else ⟨graph, .reg target⟩
  | .shl | .lsr | .asr | .and | .mul =>
    if value = 0 then ⟨graph, insn.src1⟩ else ⟨graph, .reg target⟩
  | .sub =>
    if value = 0 then replaceWithNeg graph target insn insn.src2
    else
      match graph.def? insn.src2 with
      | some (_, inner) => simplifyConstLeftsub graph target insn value inner
      | none => ⟨graph, .reg target⟩
  | _ => ⟨graph, .reg target⟩

/-- The first switch of `simplify_sub`, on the definition of the left operand: the pseudo that
replaces the target. -/
def subLeft : Option Pseudo :=
  match graph.def? insn.src1 with
  | none => none
  | some (_, inner) =>
    if inner.opcode = .add then
      if inner.src1 = insn.src2 then some inner.src2
      else if inner.src2 = insn.src2 then some inner.src1
      else none
    else none

/-- The second switch of `simplify_sub`, on the definition of the right operand. -/
def subRight : Simplified :=
  match graph.def? insn.src2 with
  | none => ⟨graph, .reg target⟩
  | some (_, inner) =>
    match inner.opcode with
    | .add =>
      if insn.src1 = inner.src1 then replaceWithNeg graph target insn inner.src2
      else if insn.src1 = inner.src2 then replaceWithNeg graph target insn inner.src1
      else ⟨graph, .reg target⟩
    | .neg => graph.retarget target { insn with opcode := .add, src2 := inner.src1 }
    | _ => ⟨graph, .reg target⟩

def simplifySub : Simplified :=
  match subLeft graph insn with
  | some pseudo => ⟨graph, pseudo⟩
  | none => subRight graph target insn

end Arithmetic

end SmatchFormal.Ir
