import SmatchFormal.Ir.Compare
import SmatchFormal.Ir.EvalOp

/-!
# Simplifying a cast

`simplify_cast` merges a cast with the definition of its source.  A truncation of an `OR`,
or of a shift of one, is a mask, and `simplify_mask_or` looks for parts that the mask
removes.
-/

namespace SmatchFormal.Ir

/-- `simplify_constant_unop`; `none` is an opcode that it does not fold. -/
def simplifyConstantUnop (insn : Instruction) (val : BitVec 64) : Option (BitVec 64) :=
  let res : Option (BitVec 64) :=
    match insn.opcode with
    | .not => some (~~~val)
    | .neg => some (-val)
    | .sext => some (evalOperand insn.itype val)
    | .zext | .trunc => some val
    | _ => none
  res.map (· &&& bitsMask insn.size)

/-- `simplify_mask_or_and`: the instruction `insn` of `user` masks the `OR` that defines
`orReg`, whose operand `ora` may be an `AND`.  `none` says that nothing was changed. -/
def simplifyMaskOrAnd (graph : Graph) (user : Nat) (insn : Instruction) (mask : BitVec 64)
    (orReg : Nat) (union : Instruction) (ora orb : Pseudo) : Option Graph :=
  match graph.def? ora with
  | some (andReg, inner) =>
    match inner.opcode, inner.src2 with
    | .and, .val omask =>
      let nmask := omask &&& mask
      if nmask = 0 then some (graph.setDef user { insn with src1 := orb })
      else if graph.oneUse orReg = false then none
      else if nmask = mask then
        some (graph.setDef orReg
          (if ora = union.src1 then { union with src1 := inner.src1 }
            else { union with src2 := inner.src1 }))
      else if nmask ≠ omask ∧ graph.oneUse andReg = true then
        some (graph.setDef andReg { inner with src2 := .val nmask })
      else none
    | _, _ => none
  | none => none

/-- The last part of `simplify_mask_or`, for an `OR` with a constant. -/
def simplifyMaskOrVal (graph : Graph) (user : Nat) (insn : Instruction) (mask : BitVec 64)
    (orReg : Nat) (union : Instruction) (oval : BitVec 64) : Option Graph :=
  let nval := oval &&& mask
  if nval = 0 then some (graph.setDef user { insn with src1 := union.src1 })
  else if nval = mask then some (graph.setDef user { insn with src1 := .val mask })
  else if nval ≠ oval ∧ graph.oneUse orReg = true then
    some (graph.setDef orReg { union with src2 := .val nval })
  else none

def simplifyMaskOr (graph : Graph) (user : Nat) (insn : Instruction) (mask : BitVec 64)
    (orReg : Nat) (union : Instruction) : Option Graph :=
  (simplifyMaskOrAnd graph user insn mask orReg union union.src1 union.src2).or
    (match union.src2 with
    | .val oval => simplifyMaskOrVal graph user insn mask orReg union oval
    | src2 => simplifyMaskOrAnd graph user insn mask orReg union src2 union.src1)

/-- The mask that `simplify_mask_shift_or` passes on.  The count is less than the width of the
shift, which is tainted otherwise. -/
def shiftedMask (sh : Instruction) (mask : BitVec 64) (shift : Nat) : BitVec 64 :=
  bitsMask sh.size &&& if sh.opcode = .lsr then mask <<< shift else mask >>> shift

def simplifyMaskShift (tainted : Nat → Bool) (graph : Graph) (reg : Nat) (sh : Instruction)
    (mask : BitVec 64) : Option Graph :=
  match sh.src2 with
  | .val count =>
    if tainted reg then none
    else
      match graph.def? sh.src1 with
      | some (orReg, union) =>
        if union.opcode = .or ∧ graph.oneUse reg = true then
          simplifyMaskOr graph reg sh (shiftedMask sh mask count.toNat) orReg union
        else none
      | none => none
  | _ => none

def Graph.retarget (graph : Graph) (target : Nat) (new : Instruction) : Simplified :=
  ⟨graph.setDef target new, .reg target⟩

/-- `1 << count`, converted to 64 bits.  The standard gives no meaning to counts from 32 on. -/
def intShift (undefinedShift : Nat → BitVec 32) (count : Nat) : BitVec 64 :=
  (if count < 32 then 1#32 <<< count else undefinedShift count).signExtend 64

/-- The extension of an `AND` becomes an `AND` of an extension. -/
def extendAnd (graph : Graph) (target : Nat) (insn : Instruction) (reg : Nat)
    (inner : Instruction) : Simplified :=
  if graph.oneUse reg then
    (graph.setDef reg
      { inner with opcode := .zext, itype := insn.itype, size := insn.size }).retarget target
        { insn with opcode := .and, src2 := inner.src2 }
  else ⟨graph, .reg target⟩

def castOfAnd (undefinedShift : Nat → BitVec 32) (graph : Graph) (target : Nat)
    (insn : Instruction) (reg : Nat) (inner : Instruction) (val : BitVec 64) : Simplified :=
  match insn.opcode with
  | .trunc =>
    if graph.oneUse reg then
      (graph.setDef reg
        { inner with opcode := .trunc, itype := inner.size, size := insn.size }).retarget target
          { insn with opcode := .and, src2 := .val (val &&& ((1#64 <<< insn.size) - 1)) }
    else ⟨graph, .reg target⟩
  | .sext =>
    if val &&& intShift undefinedShift (inner.size - 1) ≠ 0 then ⟨graph, .reg target⟩
    else extendAnd graph target insn reg inner
  | .zext => extendAnd graph target insn reg inner
  | _ => ⟨graph, .reg target⟩

def castOfCompare (graph : Graph) (target : Nat) (insn : Instruction) (inner : Instruction) :
    Simplified :=
  if insn.opcode = .sext ∧ insn.size = 1 then ⟨graph, .reg target⟩
  else
    graph.retarget target
      { insn with
        opcode := inner.opcode
        itype := inner.itype
        src1 := inner.src1
        src2 := inner.src2 }

def castOfNot (graph : Graph) (target : Nat) (insn : Instruction) (reg : Nat)
    (inner : Instruction) : Simplified :=
  if insn.opcode = .trunc ∧ graph.oneUse reg = true then
    (graph.setDef reg
      { inner with opcode := .trunc, itype := inner.size, size := insn.size }).retarget target
        { insn with opcode := .not }
  else ⟨graph, .reg target⟩

def castOfTrunc (graph : Graph) (target : Nat) (insn : Instruction) (inner : Instruction) :
    Simplified :=
  match insn.opcode with
  | .trunc => graph.retarget target { insn with itype := inner.itype, src1 := inner.src1 }
  | .sext =>
    match graph.def? inner.src1 with
    | some (_, inner2) =>
      if insn.size = inner.itype ∧ inner2.opcode = .lsr ∧
          inner2.src2 = .val (BitVec.ofNat 64 (insn.size - inner.size)) then
        graph.retarget target
          { insn with opcode := .asr, src1 := inner2.src1, src2 := inner2.src2 }
      else ⟨graph, .reg target⟩
    | none => ⟨graph, .reg target⟩
  | .zext =>
    if insn.size = inner.itype then
      graph.retarget target
        { insn with
          opcode := .and
          src1 := inner.src1
          src2 := .val ((1#64 <<< inner.size) - 1) }
    else ⟨graph, .reg target⟩
  | _ => ⟨graph, .reg target⟩

def truncOfExtend (graph : Graph) (target : Nat) (insn : Instruction) (inner : Instruction) :
    Simplified :=
  if insn.size = inner.itype then ⟨graph, inner.src1⟩
  else
    graph.retarget target
      { insn with
        opcode := if inner.itype < insn.size then inner.opcode else insn.opcode
        itype := inner.itype
        src1 := inner.src1 }

def castOfZext (graph : Graph) (target : Nat) (insn : Instruction) (inner : Instruction) :
    Simplified :=
  match insn.opcode with
  | .sext | .zext =>
    graph.retarget target
      { insn with opcode := .zext, itype := inner.itype, src1 := inner.src1 }
  | .trunc => truncOfExtend graph target insn inner
  | _ => ⟨graph, .reg target⟩

def castOfSext (graph : Graph) (target : Nat) (insn : Instruction) (inner : Instruction) :
    Simplified :=
  match insn.opcode with
  | .trunc => truncOfExtend graph target insn inner
  | .sext => graph.retarget target { insn with itype := inner.itype, src1 := inner.src1 }
  | _ => ⟨graph, .reg target⟩

def castOfDef (undefinedShift : Nat → BitVec 32) (tainted : Nat → Bool) (graph : Graph)
    (target : Nat) (insn : Instruction) (reg : Nat) (inner : Instruction) : Simplified :=
  match inner.opcode with
  | .and =>
    match inner.src2 with
    | .val val => castOfAnd undefinedShift graph target insn reg inner val
    | _ => ⟨graph, .reg target⟩
  | .not => castOfNot graph target insn reg inner
  | .or =>
    if insn.opcode = .trunc then
      ⟨(simplifyMaskOr graph target insn (bitsMask insn.size) reg inner).getD graph, .reg target⟩
    else ⟨graph, .reg target⟩
  | .lsr | .shl =>
    if insn.opcode = .trunc then
      ⟨(simplifyMaskShift tainted graph reg inner (bitsMask insn.size)).getD graph, .reg target⟩
    else ⟨graph, .reg target⟩
  | .trunc => castOfTrunc graph target insn inner
  | .zext => castOfZext graph target insn inner
  | .sext => castOfSext graph target insn inner
  | opcode =>
    if opcode.isCompare then castOfCompare graph target insn inner else ⟨graph, .reg target⟩

def simplifyCast (undefinedShift : Nat → BitVec 32) (tainted : Nat → Bool) (graph : Graph)
    (target : Nat) (insn : Instruction) : Simplified :=
  match insn.src1 with
  | .val val =>
    match simplifyConstantUnop insn val with
    | some res => ⟨graph, .val res⟩
    | none => ⟨graph, .reg target⟩
  | src =>
    match graph.def? src with
    | some (reg, inner) => castOfDef undefinedShift tainted graph target insn reg inner
    | none => ⟨graph, .reg target⟩

end SmatchFormal.Ir
