import Mathlib.Tactic.Ring

/-!
# Linearized code

The instructions of `linearize.h` that compute a value from other values, as a
graph: a register stands for the instruction that defines it.  Every other
pseudo (an argument, a load, a phi node) is a leaf.
-/

namespace SmatchFormal.Ir

inductive Opcode where
  | add | mul | sub | divu | divs | modu | mods | lsr | asr | shl | and | or | xor
  | setEq | setLt | setLe | setGe | setGt | setB | setBe | setAe | setA | setNe
  | not | neg | trunc | zext | sext
  | sel
  deriving DecidableEq

namespace Opcode

/-- `opcode_negate`; `none` is `OP_BADOP`. -/
def negate : Opcode → Option Opcode
  | setEq => some setNe
  | setLt => some setGe
  | setLe => some setGt
  | setGe => some setLt
  | setGt => some setLe
  | setB => some setAe
  | setBe => some setA
  | setAe => some setB
  | setA => some setBe
  | setNe => some setEq
  | _ => none

def arity : Opcode → Nat
  | not | neg | trunc | zext | sext => 1
  | sel => 3
  | _ => 2

end Opcode

/-- A pseudo: a value, a register, or anything else that has no definition.  Values are
shared, so that two pseudos are the same object exactly when they are equal. -/
inductive Pseudo where
  | val (value : BitVec 64)
  | reg (nr : Nat)
  | arg (nr : Nat)
  deriving DecidableEq

namespace Pseudo

def isZero : Pseudo → Bool
  | val value => value == 0
  | _ => false

end Pseudo

inductive Slot where
  | src1 | src2 | src3
  deriving DecidableEq

/-- `struct instruction`; the width of its type is `size`, and `itype` is the width of the
operands of a comparison, or of the original type of a cast. -/
structure Instruction where
  opcode : Opcode
  size : Nat
  itype : Nat
  src1 : Pseudo
  src2 : Pseudo
  src3 : Pseudo
  deriving DecidableEq

namespace Instruction

def operands (insn : Instruction) : List (Slot × Pseudo) :=
  [(.src1, insn.src1), (.src2, insn.src2), (.src3, insn.src3)].take insn.opcode.arity

def truth (holds : Bool) : Nat := if holds then 1 else 0

/-- The value of an instruction.  A comparison reads its operands at the width of `itype`,
a cast reads its operand at the width of its original type, the condition of a select and
the count of a shift are read as they are, and the rest is read at the width of `size`. -/
def eval (insn : Instruction) (v1 v2 v3 : Nat) : Nat :=
  let a := BitVec.ofNat insn.size v1
  let b := BitVec.ofNat insn.size v2
  let x := BitVec.ofNat insn.itype v1
  let y := BitVec.ofNat insn.itype v2
  match insn.opcode with
  | .add => (a + b).toNat
  | .mul => (a * b).toNat
  | .sub => (a - b).toNat
  | .divu => (a / b).toNat
  | .divs => (a.sdiv b).toNat
  | .modu => (a % b).toNat
  | .mods => (a.srem b).toNat
  | .lsr => (a >>> v2).toNat
  | .asr => (a.sshiftRight v2).toNat
  | .shl => (a <<< v2).toNat
  | .and => (a &&& b).toNat
  | .or => (a ||| b).toNat
  | .xor => (a ^^^ b).toNat
  | .setEq => truth (x == y)
  | .setLt => truth (x.slt y)
  | .setLe => truth (x.sle y)
  | .setGe => truth (y.sle x)
  | .setGt => truth (y.slt x)
  | .setB => truth (x.ult y)
  | .setBe => truth (x.ule y)
  | .setAe => truth (y.ule x)
  | .setA => truth (y.ult x)
  | .setNe => truth (x != y)
  | .not => (~~~a).toNat
  | .neg => (-a).toNat
  | .trunc | .zext => (x.setWidth insn.size).toNat
  | .sext => (x.signExtend insn.size).toNat
  | .sel => if v1 ≠ 0 then b.toNat else (BitVec.ofNat insn.size v3).toNat

end Instruction

/-- The code of a function, as far as the simplifications look at it. -/
structure Graph where
  /-- `pseudo->def`, for a register that is not a leaf. -/
  defs : Nat → Option Instruction
  /-- `pseudo->users`, as the target of the using instruction and the place of the use. -/
  users : Nat → List (Nat × Slot)
  /-- `pseudo->def->bb`. -/
  bb : Nat → Nat
  /-- `bb->insns`, as the targets of the instructions. -/
  insns : Nat → List Nat
  /-- `domtree_dominates`. -/
  dominates : Nat → Nat → Bool

def insnBefore : List Nat → Nat → Nat → Bool
  | [], _, _ => false
  | insn :: insns, x, y =>
    if insn = x then true else if insn = y then false else insnBefore insns x y

namespace Graph

def oneUse (graph : Graph) (reg : Nat) : Bool := decide ((graph.users reg).length ≤ 1)

/-- The instruction of a register comes before that of another one wherever the latter runs. -/
def comesBefore (graph : Graph) (x y : Nat) : Bool :=
  if graph.bb x = graph.bb y then insnBefore (graph.insns (graph.bb x)) x y
  else graph.dominates (graph.bb x) (graph.bb y)

def canMoveTo (graph : Graph) (src : Pseudo) (dst : Nat) : Bool :=
  graph.oneUse dst &&
    match src with
    | .reg reg => reg != dst && graph.comesBefore reg dst
    | _ => true

def def? (graph : Graph) : Pseudo → Option (Nat × Instruction)
  | .reg reg => (graph.defs reg).map fun insn => (reg, insn)
  | _ => none

def setDef (graph : Graph) (reg : Nat) (insn : Instruction) : Graph :=
  { graph with defs := Function.update graph.defs reg (some insn) }

end Graph

/-- Instructions only use what is defined before them, in the order of the given numbers. -/
def Ordered (number : Nat → Nat) (defs : Nat → Option Instruction) : Prop :=
  ∀ reg insn, defs reg = some insn → ∀ slot used, (slot, .reg used) ∈ insn.operands →
    number used < number reg

structure Graph.WellFormed (graph : Graph) (number : Nat → Nat) : Prop where
  ordered : Ordered number graph.defs
  used : ∀ reg insn, graph.defs reg = some insn → ∀ slot used, (slot, .reg used) ∈ insn.operands →
    (reg, slot) ∈ graph.users used
  before : ∀ x y, x ≠ y → graph.comesBefore x y = true → number x < number y

/-- Values of all pseudos, of which each register has the value of its instruction. -/
structure Evaluates (defs : Nat → Option Instruction) (value : Pseudo → Nat) : Prop where
  constant : ∀ n, value (.val n) = n.toNat
  defined : ∀ reg insn, defs reg = some insn →
    value (.reg reg) = insn.eval (value insn.src1) (value insn.src2) (value insn.src3)

def SameLeaves (defs : Nat → Option Instruction) (value value' : Pseudo → Nat) : Prop :=
  (∀ nr, value' (.arg nr) = value (.arg nr)) ∧
    ∀ reg, defs reg = none → value' (.reg reg) = value (.reg reg)

/-! ## Evaluation -/

theorem Instruction.eval_congr (insn : Instruction) {value value' : Pseudo → Nat}
    (same : ∀ slot pseudo, (slot, pseudo) ∈ insn.operands → value' pseudo = value pseudo) :
    insn.eval (value' insn.src1) (value' insn.src2) (value' insn.src3) =
      insn.eval (value insn.src1) (value insn.src2) (value insn.src3) := by
  obtain ⟨opcode, size, itype, src1, src2, src3⟩ := insn
  have first : value' src1 = value src1 :=
    same .src1 src1 (by cases opcode <;> exact List.mem_cons_self)
  cases opcode with
  | sel =>
    have second : value' src2 = value src2 := same .src2 src2 (.tail _ (.head _))
    have third : value' src3 = value src3 := same .src3 src3 (.tail _ (.tail _ (.head _)))
    simp only [first, second, third]
  | not | neg | trunc | zext | sext =>
    simp only [first]
    rfl
  | _ =>
    have second : value' src2 = value src2 := same .src2 src2 (.tail _ (.head _))
    simp only [first, second]
    rfl

def pseudoValue (leaf : Pseudo → Nat) (register : Nat → Nat) : Pseudo → Nat
  | .val n => n.toNat
  | .arg nr => leaf (.arg nr)
  | .reg reg => register reg

def evaluate (number : Nat → Nat) (defs : Nat → Option Instruction) (leaf : Pseudo → Nat)
    (reg : Nat) : Nat :=
  match defs reg with
  | none => leaf (.reg reg)
  | some insn =>
    let operand := pseudoValue leaf fun used =>
      if _ : number used < number reg then evaluate number defs leaf used else 0
    insn.eval (operand insn.src1) (operand insn.src2) (operand insn.src3)
termination_by number reg

/-- Ordered instructions have a value for all values of the leaves. -/
theorem Ordered.exists_evaluates {number : Nat → Nat} {defs : Nat → Option Instruction}
    (ordered : Ordered number defs) (leaf : Pseudo → Nat) :
    ∃ value, Evaluates defs value ∧ SameLeaves defs leaf value := by
  refine ⟨pseudoValue leaf (evaluate number defs leaf), ⟨fun _ => rfl, ?_⟩, fun _ => rfl, ?_⟩
  · intro reg insn defined
    change evaluate number defs leaf reg = _
    rw [evaluate, defined]
    refine insn.eval_congr ?_
    intro slot pseudo member
    cases pseudo with
    | val n => rfl
    | arg nr => rfl
    | reg used => exact dif_pos (ordered reg insn defined slot used member)
  · intro reg undefined
    change evaluate number defs leaf reg = _
    rw [evaluate, undefined]

section

variable {number : Nat → Nat} {defs defs' : Nat → Option Instruction} {value value' : Pseudo → Nat}
  (ordered : Ordered number defs) (evaluates : Evaluates defs value)
  (evaluates' : Evaluates defs' value') (leaves : SameLeaves defs value value')
include ordered evaluates evaluates' leaves

/-- Two evaluations agree before the target, outside of the registers that may have changed,
when those are only used by each other and from the target on. -/
theorem Evaluates.agree_outside (target : Nat) (edited : Nat → Prop)
    (kept : ∀ reg, reg ≠ target → ¬edited reg → defs' reg = defs reg)
    (later : ∀ reg insn, defs reg = some insn → ∀ slot used, (slot, .reg used) ∈ insn.operands →
      edited used → edited reg ∨ number target ≤ number reg)
    {reg : Nat} (before : number reg < number target) (other : ¬edited reg) :
    value' (.reg reg) = value (.reg reg) := by
  -- The induction is on the number: an operand has a smaller one.
  induction h : number reg using Nat.strong_induction_on generalizing reg with
  | _ n ih =>
    subst h
    have changed : reg ≠ target := by
      rintro rfl
      exact lt_irrefl _ before
    cases defined : defs reg with
    | none => exact leaves.2 reg defined
    | some insn =>
      rw [evaluates.defined reg insn defined,
        evaluates'.defined reg insn ((kept reg changed other).trans defined)]
      refine insn.eval_congr ?_
      intro slot pseudo member
      cases pseudo with
      | val n => rw [evaluates.constant, evaluates'.constant]
      | arg nr => exact leaves.1 nr
      | reg used =>
        have less := ordered reg insn defined slot used member
        refine ih _ less (less.trans before) ?_ rfl
        intro here
        rcases later reg insn defined slot used member here with same | after
        · exact other same
        · exact absurd before (not_lt.mpr after)

/-- Two evaluations agree before the first instruction that was changed, except at a
register that only later instructions use. -/
theorem Evaluates.agree (target edited : Nat)
    (kept : ∀ reg, reg ≠ target → reg ≠ edited → defs' reg = defs reg)
    (later : ∀ reg insn, defs reg = some insn → ∀ slot, (slot, .reg edited) ∈ insn.operands →
      number target ≤ number reg)
    {reg : Nat} (before : number reg < number target) (other : reg ≠ edited) :
    value' (.reg reg) = value (.reg reg) := by
  refine Evaluates.agree_outside ordered evaluates evaluates' leaves target (· = edited) kept ?_
    before other
  rintro reg insn defined slot used member rfl
  exact Or.inr (later reg insn defined slot member)

end

end SmatchFormal.Ir
