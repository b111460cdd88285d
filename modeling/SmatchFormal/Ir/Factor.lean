import SmatchFormal.Ir.Compare

/-!
# Operations on two defined operands

`simplify_add`, `simplify_and`, `simplify_ior` and `simplify_xor` look at the definitions
of both operands, in both orders.  Where the definitions have an operand in common,
`swap_insn` factors it out: the second definition becomes the operation on the other
operands.
-/

namespace SmatchFormal.Ir

/-- What one side of `simplify_add`, `simplify_and`, `simplify_ior` or `simplify_xor` does. -/
inductive SideRule where
  /-- The target is replaced by a constant. -/
  | constant (value : BitVec 64)
  /-- The target is replaced by a pseudo. -/
  | replace (pseudo : Pseudo)
  /-- `(-x + y) --> (y - x)` -/
  | subtract (src1 src2 : Pseudo)
  /-- `(x >= 0) && (x <= C) --> (x u<= C)` -/
  | range (defr : Instruction)
  /-- `swap_insn` with the operands of the new pair. -/
  | factor (regr : Nat) (defr : Instruction) (a b c : Pseudo)
  /-- No rule fits. -/
  | none

def SideRule.orElse : SideRule → SideRule → SideRule
  | .none, second => second
  | first, _ => first

def swapInsn (graph : Graph) (target : Nat) (out : Instruction) (reg : Nat) (inner : Instruction)
    (a b c : Pseudo) : Graph :=
  (graph.setDef reg { inner with opcode := out.opcode, src1 := a, src2 := b }).setDef target
    { out with opcode := inner.opcode, src1 := .reg reg, src2 := c }

/-- The effect of a rule on the instruction that defines `target`. -/
def SideRule.apply (graph : Graph) (target : Nat) (insn : Instruction) : SideRule → Simplified
  | .constant value => ⟨graph, .val value⟩
  | .replace pseudo => ⟨graph, pseudo⟩
  | .subtract src1 src2 =>
    ⟨graph.setDef target { insn with opcode := .sub, src1 := src1, src2 := src2 }, .reg target⟩
  | .range defr =>
    ⟨graph.setDef target
      { insn with opcode := .setBe, itype := defr.itype, src1 := defr.src1, src2 := defr.src2 },
      .reg target⟩
  | .factor regr defr a b c => ⟨swapInsn graph target insn regr defr a b c, .reg target⟩
  | .none => ⟨graph, .reg target⟩

def commonRule (graph : Graph) (inner : Instruction) (regr : Nat) (defr : Instruction) :
    SideRule :=
  if defr.src2 = inner.src2 ∧ graph.canMoveTo inner.src2 regr = true then
    .factor regr defr inner.src1 defr.src1 inner.src2
  else if defr.src1 = inner.src1 ∧ graph.canMoveTo inner.src1 regr = true then
    .factor regr defr inner.src2 defr.src2 inner.src1
  else if defr.src1 = inner.src2 ∧ graph.canMoveTo inner.src1 regr = true then
    .factor regr defr inner.src1 defr.src2 inner.src2
  else .none

def shiftPairRule (graph : Graph) (inner : Instruction) (regr : Nat) (defr : Instruction) :
    SideRule :=
  if defr.opcode = inner.opcode ∧ defr.src2 = inner.src2 ∧
      graph.canMoveTo inner.src1 regr = true then
    .factor regr defr inner.src1 defr.src1 inner.src2
  else .none

def simplifyAddOneSide (graph : Graph) (p1 p2 : Pseudo) : SideRule :=
  match graph.def? p1 with
  | none => .none
  | some (_, inner) =>
    match inner.opcode with
    | .mul =>
      match graph.def? p2 with
      | some (regr, defr) =>
        if defr.opcode = .mul then commonRule graph inner regr defr else .none
      | none => .none
    | .neg => .subtract p2 inner.src1
    | .sub => if inner.src2 = p2 then .replace inner.src1 else .none
    | _ => .none

/-- The cases that `simplify_and_one_side`, `simplify_ior_one_side` and
`simplify_xor_one_side` share: the operation that is factored out, the value for an operand
and its complement, and the value for a comparison and its negation. -/
def bitsOneSide (graph : Graph) (common : Opcode) (complement negation : BitVec 64)
    (p1 p2 : Pseudo) : SideRule :=
  match graph.def? p1 with
  | none => .none
  | some (_, inner) =>
    if inner.opcode = .not then if inner.src1 = p2 then .constant complement else .none
    else
      match graph.def? p2 with
      | none => .none
      | some (regr, defr) =>
        if inner.opcode.isCompare then
          if inner.opcode.negate = some defr.opcode ∧ inner.src1 = defr.src1 ∧
              inner.src2 = defr.src2 then .constant negation
          else .none
        else if inner.opcode = common then
          if defr.opcode = common then commonRule graph inner regr defr else .none
        else if inner.opcode = .shl ∨ inner.opcode = .lsr ∨ inner.opcode = .asr then
          shiftPairRule graph inner regr defr
        else .none

def Pseudo.isPositive (size : Nat) : Pseudo → Bool
  | .val value => value &&& signBit size == 0
  | _ => false

/-- The test for `(x >= 0) && (x <= C)`. -/
def rangeRule (graph : Graph) (p1 p2 : Pseudo) : SideRule :=
  match graph.def? p1, graph.def? p2 with
  | some (_, inner), some (_, defr) =>
    if (inner.opcode = .setGe ∧ inner.src2.isZero = true) ∧ defr.opcode = .setLe ∧
        defr.src2.isPositive defr.itype = true then .range defr
    else .none
  | _, _ => .none

/-- `simplify_and_one_side`; the test of a range comes after that of a negated comparison. -/
def simplifyAndOneSide (graph : Graph) (p1 p2 : Pseudo) : SideRule :=
  (bitsOneSide graph .or 0 0 p1 p2).orElse (rangeRule graph p1 p2)

def simplifyIorOneSide (graph : Graph) (size : Nat) (p1 p2 : Pseudo) : SideRule :=
  bitsOneSide graph .and (bitsMask size) 1 p1 p2

def simplifyXorOneSide (graph : Graph) (size : Nat) (p1 p2 : Pseudo) : SideRule :=
  bitsOneSide graph .and (bitsMask size) 1 p1 p2

/-- The rule that `simplify_add`, `simplify_and`, `simplify_ior` or `simplify_xor` uses. -/
def sideRule (graph : Graph) (insn : Instruction) : SideRule :=
  match insn.opcode with
  | .add => (simplifyAddOneSide graph insn.src1 insn.src2).orElse
      (simplifyAddOneSide graph insn.src2 insn.src1)
  | .and => (simplifyAndOneSide graph insn.src1 insn.src2).orElse
      (simplifyAndOneSide graph insn.src2 insn.src1)
  | .or => (simplifyIorOneSide graph insn.size insn.src1 insn.src2).orElse
      (simplifyIorOneSide graph insn.size insn.src2 insn.src1)
  | .xor => (simplifyXorOneSide graph insn.size insn.src1 insn.src2).orElse
      (simplifyXorOneSide graph insn.size insn.src2 insn.src1)
  | _ => .none

def simplifySides (graph : Graph) (target : Nat) (insn : Instruction) : Simplified :=
  (sideRule graph insn).apply graph target insn

end SmatchFormal.Ir
