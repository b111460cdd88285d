import SmatchFormal.Ir.Edits

/-!
# Simplifying a select

`simplify_select` looks at the condition and at both arms of a select and rewrites
it with the first rule that fits.  A rule replaces the target by another pseudo,
or it edits the select and sometimes the definition of one of its operands.
-/

namespace SmatchFormal.Ir

def isPowerOf2 (value : BitVec 64) : Bool := value != 0 && (value &&& (value - 1)) == 0

def isPow2 : Pseudo → Option (BitVec 64)
  | .val value => if isPowerOf2 value then some value else none
  | _ => none

def log2Exact (value : BitVec 64) : Nat := value.toNat.log2

def Graph.isNegateOf (graph : Graph) (p ref : Pseudo) : Bool :=
  match graph.def? p with
  | some (_, insn) => insn.opcode == .neg && insn.src1 == ref
  | none => false

inductive SelectRule where
  /-- The condition is a constant. -/
  | constant (value : BitVec 64)
  /-- The arms are the same. -/
  | same
  /-- The pair 0/1 becomes a comparison of the condition with zero. -/
  | zeroOne (opcode : Opcode) (zero : Pseudo)
  /-- `SEL(x, 0, x) --> 0` -/
  | selfFalse
  /-- `SEL(x, x, 0) --> x` -/
  | selfTrue
  /-- `SEL(x==y,x,y) --> y` and `SEL(y==x,x,y) --> y` -/
  | equal (cmp : Instruction)
  /-- `SEL(x!=y,x,y) --> x` and `SEL(y!=x,x,y) --> x` -/
  | notEqual (cmp : Instruction)
  /-- `SEL(x {<,<=} y, a, b) --> SEL(x {>=,>} y, b, a)` -/
  | negate (reg : Nat) (cmp : Instruction)
  /-- `SEL(x > 0, a, -a) --> SEL(x >= 0, a, -a)` -/
  | greater (reg : Nat) (cmp : Instruction)
  /-- `SEL(SEL(x, C, 0), C, 0) --> SEL(x, C, 0) == cond` -/
  | selectSame (inner : Instruction)
  /-- `SEL(SEL(x, C, 0), y, z) --> SEL(x, y, z)` -/
  | selectCond (inner : Instruction)
  /-- `SEL(SEL(x, 0, C), y, z) --> SEL(x, z, y)` -/
  | selectSwap (inner : Instruction)
  /-- `SEL(SEL(x, C1, C2), y, z) --> y` -/
  | selectTrue (inner : Instruction)
  /-- `SEL(x & A, B, 0) --> SHIFT(x & A, S)` -/
  | shift (inner : Instruction) (a b : BitVec 64)
  /-- `SEL(x, OP(y,z), y) --> OP(SEL(x, z, 0), y)` -/
  | factorTrue (reg : Nat) (op : Instruction) (z : Pseudo)
  /-- `SEL(x, y, OP(y,z)) --> OP(SEL(x, 0, z), y)` -/
  | factorFalse (reg : Nat) (op : Instruction) (z : Pseudo)
  /-- No rule fits. -/
  | none

def zeroOneRule (src1 src2 : Pseudo) : Option SelectRule :=
  match src1, src2 with
  | .val val1, .val val2 =>
    if val1 ||| val2 = 1 then
      if val1 ≠ 0 then some (.zeroOne .setNe src2) else some (.zeroOne .setEq src1)
    else none
  | _, _ => none

def shiftRule (graph : Graph) (insn : Instruction) (reg : Nat) (inner : Instruction) :
    Option SelectRule :=
  match isPow2 inner.src2, isPow2 insn.src2 with
  | some a, some b =>
    if insn.src3.isZero && insn.size == inner.size && graph.oneUse reg then some (.shift inner a b)
    else none
  | _, _ => none

def armsOf (insn cmp : Instruction) : Bool :=
  (insn.src2 == cmp.src1 && insn.src3 == cmp.src2) ||
    (insn.src3 == cmp.src1 && insn.src2 == cmp.src2)

def condRule (graph : Graph) (insn : Instruction) (reg : Nat) (inner : Instruction) :
    Option SelectRule :=
  match inner.opcode with
  | .setEq => if armsOf insn inner then some (.equal inner) else none
  | .setNe => if armsOf insn inner then some (.notEqual inner) else none
  | .setLe | .setLt | .setBe | .setB => if graph.oneUse reg then some (.negate reg inner) else none
  | .setGt =>
    if graph.oneUse reg && inner.src2.isZero && graph.isNegateOf insn.src3 insn.src2 then
      some (.greater reg inner)
    else none
  | .sel =>
    match inner.src2, inner.src3 with
    | .val val2, .val val3 =>
      if val3 = 0 then
        if insn.src2 = inner.src2 ∧ insn.src3 = inner.src3 then some (.selectSame inner)
        else some (.selectCond inner)
      else if val2 = 0 then some (.selectSwap inner)
      else some (.selectTrue inner)
    | _, _ => shiftRule graph insn reg inner
  | .and => shiftRule graph insn reg inner
  | _ => none

/-- The switch on the definition of one arm: the register, its instruction, and the operand
that is not the other arm. -/
def factorRule (graph : Graph) (cond arm other : Pseudo) : Option (Nat × Instruction × Pseudo) :=
  match graph.def? arm with
  | some (reg, op) =>
    match op.opcode with
    | .add | .or | .xor =>
      if op.src1 = other ∧ graph.canMoveTo cond reg = true then some (reg, op, op.src2)
      else if op.src2 = other ∧ graph.canMoveTo cond reg = true then some (reg, op, op.src1)
      else none
    | _ => none
  | none => none

def armRule (graph : Graph) (insn : Instruction) : SelectRule :=
  match factorRule graph insn.src1 insn.src2 insn.src3 with
  | some (reg, op, z) => .factorTrue reg op z
  | none =>
    match factorRule graph insn.src1 insn.src3 insn.src2 with
    | some (reg, op, z) => .factorFalse reg op z
    | none => .none

def selectRule (graph : Graph) (insn : Instruction) : SelectRule :=
  match insn.src1 with
  | .val value => .constant value
  | _ =>
    if insn.src2 = insn.src3 then .same
    else
      match zeroOneRule insn.src2 insn.src3 with
      | some rule => rule
      | none =>
        if insn.src1 = insn.src3 ∧ insn.src2.isZero = true then .selfFalse
        else if insn.src1 = insn.src2 ∧ insn.src3.isZero = true then .selfTrue
        else
          match graph.def? insn.src1 with
          | some (reg, inner) => (condRule graph insn reg inner).getD (armRule graph insn)
          | none => armRule graph insn

/-- `swap_select`, for an instruction `inner` that defines `reg`.  The third operand of the
outer one is not read any more. -/
def swapSelect (graph : Graph) (target : Nat) (out : Instruction) (reg : Nat)
    (inner : Instruction) (a b c d : Pseudo) : Graph :=
  (graph.setDef reg { inner with opcode := out.opcode, src1 := a, src2 := b, src3 := c }).setDef
    target
    { out with opcode := inner.opcode, src1 := .reg reg, src2 := d }

/-- What a rule does to the select that defines `target`. -/
def SelectRule.apply (graph : Graph) (target : Nat) (insn : Instruction) : SelectRule → Simplified
  | .constant value => ⟨graph, if value ≠ 0 then insn.src2 else insn.src3⟩
  | .same => ⟨graph, insn.src2⟩
  | .zeroOne opcode zero =>
    ⟨graph.setDef target { insn with opcode := opcode, itype := insn.size, src2 := zero },
      .reg target⟩
  | .selfFalse => ⟨graph, insn.src2⟩
  | .selfTrue => ⟨graph, insn.src1⟩
  | .equal _ => ⟨graph, insn.src3⟩
  | .notEqual _ => ⟨graph, insn.src2⟩
  | .negate reg cmp =>
    ⟨(graph.setDef reg { cmp with opcode := cmp.opcode.negate.getD cmp.opcode }).setDef target
      { insn with src2 := insn.src3, src3 := insn.src2 }, .reg target⟩
  | .greater reg cmp => ⟨graph.setDef reg { cmp with opcode := .setGe }, .reg target⟩
  | .selectSame _ => ⟨graph, insn.src1⟩
  | .selectCond inner => ⟨graph.setDef target { insn with src1 := inner.src1 }, .reg target⟩
  | .selectSwap inner =>
    ⟨graph.setDef target
      { insn with src1 := inner.src1, src2 := insn.src3, src3 := insn.src2 }, .reg target⟩
  | .selectTrue _ => ⟨graph, insn.src2⟩
  | .shift _ a b =>
    let s1 := log2Exact a
    let s2 := log2Exact b
    if s1 = s2 then ⟨graph, insn.src1⟩
    else
      ⟨graph.setDef target
        { insn with
          opcode := if s1 < s2 then .shl else .lsr
          src2 := .val (BitVec.ofNat 64 (if s1 < s2 then s2 - s1 else s1 - s2)) }, .reg target⟩
  | .factorTrue reg op z =>
    ⟨swapSelect graph target insn reg op insn.src1 z (.val 0) insn.src3, .reg target⟩
  | .factorFalse reg op z =>
    ⟨swapSelect graph target insn reg op insn.src1 (.val 0) z insn.src2, .reg target⟩
  | .none => ⟨graph, .reg target⟩

def simplifySelect (graph : Graph) (target : Nat) (insn : Instruction) : Simplified :=
  (selectRule graph insn).apply graph target insn

def chosen (insn : Instruction) (value : Pseudo → Nat) : Nat :=
  if value insn.src1 ≠ 0 then value insn.src2 else value insn.src3

/-- Only definitions that the select alone uses are edited, and for all values of the
leaves the target has the value that the select chooses, at its width. -/
def Preserves (graph : Graph) (target : Nat) (insn : Instruction) (result : Simplified) : Prop :=
  (∀ reg, reg ≠ target → result.graph.defs reg ≠ graph.defs reg →
    ∀ use ∈ graph.users reg, use.1 = target) ∧
  ∀ value, Evaluates graph.defs value → ∃ value', Evaluates result.graph.defs value' ∧
    SameLeaves graph.defs value value' ∧
    value' result.value % 2 ^ insn.size = chosen insn value % 2 ^ insn.size

section Edits

variable {graph : Graph} {number : Nat → Nat} {target : Nat} {insn : Instruction}

theorem preserves_replace_iff (wf : graph.WellFormed number) {pseudo : Pseudo}
    (before : Before number target pseudo) :
    Preserves graph target insn ⟨graph, pseudo⟩ ↔
      ∀ value, Evaluates graph.defs value →
        value pseudo % 2 ^ insn.size = chosen insn value % 2 ^ insn.size :=
  keepsAs_replace_iff wf before

theorem preserves_target_iff (wf : graph.WellFormed number)
    (defined : graph.defs target = some insn)
    {new : Instruction} (before : ∀ slot pseudo, (slot, pseudo) ∈ new.operands →
      Before number target pseudo) :
    Preserves graph target insn ⟨graph.setDef target new, .reg target⟩ ↔
      ∀ value, Evaluates graph.defs value →
        new.eval (value new.src1) (value new.src2) (value new.src3) % 2 ^ insn.size =
          chosen insn value % 2 ^ insn.size :=
  keepsAs_target_iff wf defined before

/-- The select is edited together with an instruction that it alone uses. -/
theorem PairEdit.preserves_iff {graph' : Graph} {reg : Nat} {new newDef : Instruction}
    (edit : PairEdit graph graph' number target reg new newDef) (wf : graph.WellFormed number) :
    Preserves graph target insn ⟨graph', .reg target⟩ ↔
      ∀ value, Evaluates graph.defs value →
        new.eval (afterEdit value reg newDef new.src1) (afterEdit value reg newDef new.src2)
            (afterEdit value reg newDef new.src3) % 2 ^ insn.size =
          chosen insn value % 2 ^ insn.size :=
  edit.moved.keepsAs_iff wf

end Edits

end SmatchFormal.Ir
