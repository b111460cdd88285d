import SmatchFormal.Ir.Cast

/-!
# Shifts and masks by a constant

`simplify_shift` merges a shift by a constant with the definition of its operand, and
`simplify_constant_mask` does so for an `AND`.
-/

namespace SmatchFormal.Ir

def signExtendSafe (val : BitVec 64) (size : Nat) : BitVec 64 :=
  if val &&& ~~~bitsMask size = 0 then signExtend val size else val

def valueSize (value : BitVec 64) : Nat :=
  let value := value.sshiftRight 8
  if value = 0 then 8
  else
    let value := value.sshiftRight 8
    if value = 0 then 16
    else
      let value := value.sshiftRight 16
      if value = 0 then 32 else 64

def operandSize (graph : Graph) (insn : Instruction) (pseudo : Pseudo) : Nat :=
  match pseudo with
  | .val value => min (valueSize value) insn.size
  | pseudo =>
    match graph.def? pseudo with
    | some (_, src) => if src.opcode = .zext ∧ src.itype < insn.size then src.itype else insn.size
    | none => insn.size

/-- What `check_shift_count` says about a count: it is one, the instruction has been found
tainted, or the instruction is tainted now and may have got another count. -/
inductive ShiftCount where
  | inside (count : Nat)
  | tainted
  | outside (src2 : Pseudo)

def bitsInInt : Nat := 32

def checkShiftCount (tainted : Bool) (insn : Instruction) (uval : BitVec 64) : ShiftCount :=
  if tainted then .tainted
  else if uval.toNat < insn.size then .inside uval.toNat
  else
    let sval := signExtendSafe (signExtendSafe uval insn.size) bitsInInt
    .outside (if sval.slt 0 then .val sval else insn.src2)

section Shift

variable (graph : Graph) (target : Nat) (insn : Instruction)

/-- The label `new_value`: the count becomes `value`, unless that is the size or more. -/
def newValue (size value : Nat) (src1 : Pseudo) : Simplified :=
  if value < size then
    graph.retarget target { insn with src1 := src1, src2 := .val (BitVec.ofNat 64 value) }
  else ⟨graph, .val 0⟩

def replaceMask (mask : BitVec 64) (src1 : Pseudo) : Simplified :=
  graph.retarget target { insn with opcode := .and, src1 := src1, src2 := .val mask }

def shiftShift (reg : Nat) (inner : Instruction) (size value : Nat) : Simplified :=
  match inner.src2 with
  | .val nval =>
    if reg = target ∨ insn.size < nval.toNat then ⟨graph, .reg target⟩
    else newValue graph target insn size (value + nval.toNat) inner.src1
  | _ => ⟨graph, .reg target⟩

def shiftOr (reg : Nat) (inner : Instruction) (size value : Nat) : Simplified :=
  ⟨(simplifyMaskOr graph target insn (shiftedMask insn (bitsMask size) value) reg inner).getD graph,
    .reg target⟩

def asrShift (reg : Nat) (inner : Instruction) (value : Nat) : Simplified :=
  match inner.src2 with
  | .val nval =>
    if reg = target ∨ insn.size < nval.toNat ∨ nval = 0 then ⟨graph, .reg target⟩
    else
      let value := value + nval.toNat
      if inner.opcode = .lsr then
        newValue graph target { insn with opcode := .lsr } insn.size value inner.src1
      else
        newValue graph target insn insn.size (if insn.size ≤ value then insn.size - 1 else value)
          inner.src1
  | _ => ⟨graph, .reg target⟩

def simplifyAsr (pseudo : Pseudo) (value : Nat) : Simplified :=
  if insn.size ≤ value then ⟨graph, .reg target⟩
  else
    match graph.def? pseudo with
    | none => ⟨graph, .reg target⟩
    | some (reg, inner) =>
      match inner.opcode with
      | .lsr | .asr => asrShift graph target insn reg inner value
      | .zext => graph.retarget target { insn with opcode := .lsr }
      | _ => ⟨graph, .reg target⟩

def lsrAnd (reg : Nat) (inner : Instruction) (value : Nat) : Simplified :=
  match inner.src2 with
  | .val omask =>
    let mask := bitsMask (insn.size - value) <<< value
    let nmask := omask &&& mask
    if nmask = 0 then ⟨graph, .val 0⟩
    else if nmask = mask then graph.retarget target { insn with src1 := inner.src1 }
    else if graph.oneUse reg then
      (graph.setDef reg { inner with opcode := .lsr, src2 := insn.src2 }).retarget target
        { insn with opcode := .and, src2 := .val (omask >>> value) }
    else ⟨graph, .reg target⟩
  | _ => ⟨graph, .reg target⟩

def simplifyLsr (pseudo : Pseudo) (value : Nat) : Simplified :=
  let size := operandSize graph insn pseudo
  if size ≤ value then ⟨graph, .val 0⟩
  else
    match graph.def? pseudo with
    | none => ⟨graph, .reg target⟩
    | some (reg, inner) =>
      match inner.opcode with
      | .and => lsrAnd graph target insn reg inner value
      | .lsr => shiftShift graph target insn reg inner size value
      | .or => shiftOr graph target insn reg inner size value
      | .shl =>
        if inner.src2 ≠ insn.src2 then ⟨graph, .reg target⟩
        else replaceMask graph target insn (bitsMask (insn.size - value)) inner.src1
      | _ => ⟨graph, .reg target⟩

/-- The case `OP_SHL` with an `AND`, which is not made an `AND` of a shift. -/
def shlAnd (inner : Instruction) (value : Nat) : Simplified :=
  match inner.src2 with
  | .val omask =>
    let mask := bitsMask insn.size >>> value
    let nmask := omask &&& mask
    if nmask = 0 then ⟨graph, .val 0⟩
    else if nmask = mask then graph.retarget target { insn with src1 := inner.src1 }
    else ⟨graph, .reg target⟩
  | _ => ⟨graph, .reg target⟩

def simplifyShl (pseudo : Pseudo) (value : Nat) : Simplified :=
  if insn.size ≤ value then ⟨graph, .val 0⟩
  else
    match graph.def? pseudo with
    | none => ⟨graph, .reg target⟩
    | some (reg, inner) =>
      match inner.opcode with
      | .and => shlAnd graph target insn inner value
      | .lsr =>
        if inner.src2 ≠ insn.src2 then ⟨graph, .reg target⟩
        else
          replaceMask graph target insn (bitsMask (insn.size - value) <<< value) inner.src1
      | .or => shiftOr graph target insn reg inner insn.size value
      | .shl => shiftShift graph target insn reg inner insn.size value
      | _ => ⟨graph, .reg target⟩

/-- `simplify_shift`, and the flag `tainted` of the instruction after it. -/
def simplifyShift (tainted : Bool) (pseudo : Pseudo) (value : BitVec 64) : Simplified × Bool :=
  if value = 0 then (⟨graph, pseudo⟩, tainted)
  else
    match checkShiftCount tainted insn value with
    | .tainted => (⟨graph, .reg target⟩, true)
    | .outside src2 => (graph.retarget target { insn with src2 := src2 }, true)
    | .inside count =>
      match insn.opcode with
      | .asr => (simplifyAsr graph target insn pseudo count, tainted)
      | .lsr => (simplifyLsr graph target insn pseudo count, tainted)
      | .shl => (simplifyShl graph target insn pseudo count, tainted)
      | _ => (⟨graph, .reg target⟩, tainted)

def smallerMask (mask : BitVec 64) (osize : Nat) : Simplified :=
  let omask := (1#64 <<< osize) - 1
  let nmask := mask &&& omask
  -- The mask is redundant.
  if nmask = omask then ⟨graph, insn.src1⟩
  else if nmask ≠ mask then graph.retarget target { insn with src2 := .val nmask }
  else ⟨graph, .reg target⟩

def simplifyConstantMask (tainted : Nat → Bool) (mask : BitVec 64) : Simplified :=
  match graph.def? insn.src1 with
  | none => ⟨graph, .reg target⟩
  | some (reg, inner) =>
    match inner.opcode with
    | .or => ⟨(simplifyMaskOr graph target insn mask reg inner).getD graph, .reg target⟩
    | .lsr | .shl => ⟨(simplifyMaskShift tainted graph reg inner mask).getD graph, .reg target⟩
    | .zext => smallerMask graph target insn mask inner.itype
    | opcode =>
      if opcode.isCompare then smallerMask graph target insn mask 1 else ⟨graph, .reg target⟩

end Shift

end SmatchFormal.Ir
