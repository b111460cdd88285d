import SmatchFormal.Ir.Arith
import SmatchFormal.Ir.ShiftSound
import SmatchFormal.Ir.SwapOrder

/-!
# Arithmetic rules are identities modulo a power of two

The rules for constants and for defined operands are equations between words of the width of
the instruction, and folding a constant keeps its low bits.
-/

namespace SmatchFormal.Ir

/-! ## Words -/

def Opcode.isArith : Opcode → Bool
  | .not | .neg | .add | .sub | .mul | .and | .or | .xor => true
  | _ => false

section Words

variable {w : Nat}

def Opcode.arith : Opcode → BitVec w → BitVec w → BitVec w
  | .not, x, _ => ~~~x
  | .neg, x, _ => -x
  | .add, x, y => x + y
  | .sub, x, y => x - y
  | .mul, x, y => x * y
  | .and, x, y => x &&& y
  | .or, x, y => x ||| y
  | _, x, y => x ^^^ y

def low (w : Nat) (value : Pseudo → Nat) (pseudo : Pseudo) : BitVec w :=
  BitVec.ofNat w (value pseudo)

theorem eval_arith {insn : Instruction} (kind : insn.opcode.isArith = true) (v1 v2 v3 : Nat) :
    insn.eval v1 v2 v3 =
      (insn.opcode.arith (BitVec.ofNat insn.size v1) (BitVec.ofNat insn.size v2)).toNat := by
  unfold Instruction.eval
  cases opcode : insn.opcode <;> rw [opcode] at kind <;> first | rfl | cases kind

theorem not_eq (x : BitVec w) : ~~~x = -x - 1 := by
  rw [BitVec.neg_eq_not_add]
  exact (add_sub_cancel_right _ _).symm

section

variable {opcode : Opcode} (associative : opcode.isAssociative = true)
include associative

theorem arith_comm (x y : BitVec w) :
    opcode.arith x y = opcode.arith y x := by
  cases opcode with
  | add => exact add_comm x y
  | mul => exact mul_comm x y
  | and => exact BitVec.and_comm x y
  | or => exact BitVec.or_comm x y
  | xor => exact BitVec.xor_comm x y
  | _ => cases associative

theorem arith_assoc (x y z : BitVec w) :
    opcode.arith (opcode.arith x y) z = opcode.arith x (opcode.arith y z) := by
  cases opcode with
  | add => exact add_assoc x y z
  | mul => exact mul_assoc x y z
  | and => exact BitVec.and_assoc x y z
  | or => exact BitVec.or_assoc x y z
  | xor => exact BitVec.xor_assoc x y z
  | _ => cases associative

theorem arith_swap (x y z : BitVec w) :
    opcode.arith (opcode.arith z y) x = opcode.arith (opcode.arith x y) z := by
  rw [arith_assoc associative z y x, arith_comm associative y x, arith_comm associative z]

end

theorem setWidth_one : (1#64).setWidth w = 1 := by
  apply BitVec.eq_of_toNat_eq
  rw [BitVec.toNat_setWidth]
  rfl

end Words

section Folding

variable {size : Nat}

theorem setWidth_and_bitsMask (pos : 0 < size) (le : size ≤ 64) (x : BitVec 64) :
    (x &&& bitsMask size).setWidth size = x.setWidth size := by
  rw [and_bitsMask pos le, BitVec.setWidth_setWidth_of_le _ le, BitVec.setWidth_eq]

theorem setWidth_evalOperand (pos : 0 < size) (le : size ≤ 64) (x : BitVec 64) :
    (evalOperand size x).setWidth size = x.setWidth size := by
  unfold evalOperand
  split_ifs
  · apply BitVec.eq_of_getLsbD_eq
    intro i inside
    rw [BitVec.getLsbD_setWidth, BitVec.getLsbD_setWidth, BitVec.getLsbD_or, BitVec.getLsbD_not,
      getLsbD_bitsMask i pos le, decide_eq_true inside, Bool.not_true, Bool.and_false,
      Bool.or_false]
  · rfl

theorem setWidth_evalOp (pos : 0 < size) (le : size ≤ 64) {op : Opcode}
    (kind : op.isArith = true) (l r : BitVec 64) :
    ((evalOp op size l r).getD 0).setWidth size =
      op.arith (l.setWidth size) (r.setWidth size) := by
  have left := setWidth_evalOperand pos le l
  have right := setWidth_evalOperand pos le r
  have masked := setWidth_and_bitsMask pos le
  unfold evalOp evalSwitch
  cases op with
  | not =>
    change ((~~~(evalOperand size l &&& bitsMask size)) &&& bitsMask size).setWidth size = _
    rw [masked, BitVec.setWidth_not le, masked, left]
    rfl
  | neg =>
    change (-evalOperand size l &&& bitsMask size).setWidth size = _
    rw [masked, BitVec.setWidth_neg_of_le le, left]
    rfl
  | add =>
    change ((evalOperand size l + evalOperand size r) &&& bitsMask size).setWidth size = _
    rw [masked, BitVec.setWidth_add _ _ le, left, right]
    rfl
  | sub =>
    change ((evalOperand size l - evalOperand size r) &&& bitsMask size).setWidth size = _
    rw [masked, BitVec.sub_eq_add_neg, BitVec.setWidth_add _ _ le, BitVec.setWidth_neg_of_le le,
      left, right]
    exact (BitVec.sub_eq_add_neg _ _).symm
  | mul =>
    change ((evalOperand size l &&& bitsMask size) * (evalOperand size r &&& bitsMask size) &&&
      bitsMask size).setWidth size = _
    rw [masked, BitVec.setWidth_mul _ _ le, masked, masked, left, right]
    rfl
  | and =>
    change ((evalOperand size l &&& evalOperand size r) &&& bitsMask size).setWidth size = _
    rw [masked, BitVec.setWidth_and, left, right]
    rfl
  | or =>
    change ((evalOperand size l ||| evalOperand size r) &&& bitsMask size).setWidth size = _
    rw [masked, BitVec.setWidth_or, left, right]
    rfl
  | xor =>
    change ((evalOperand size l ^^^ evalOperand size r) &&& bitsMask size).setWidth size = _
    rw [masked, BitVec.setWidth_xor, left, right]
    rfl
  | _ => cases kind

variable {defs : Nat → Option Instruction} {value : Pseudo → Nat}

theorem low_val (evaluates : Evaluates defs value) (c : BitVec 64) :
    low size value (.val c) = c.setWidth size := by
  unfold low
  rw [evaluates.constant, BitVec.ofNat_toNat]

theorem low_folded (pos : 0 < size) (le : size ≤ 64) (evaluates : Evaluates defs value)
    {op : Opcode} (kind : op.isArith = true) (l r : BitVec 64) :
    low size value (folded op size l r) = op.arith (l.setWidth size) (r.setWidth size) := by
  unfold folded
  rw [low_val evaluates, setWidth_evalOp pos le kind]

end Folding

/-! ## Arithmetic instructions -/

structure Arithmetic (graph : Graph) (number : Nat → Nat) (target : Nat) (insn : Instruction) :
    Prop where
  wf : graph.WellFormed number
  typed : graph.Typed
  defined : graph.defs target = some insn
  kind : insn.opcode.isArith = true
  second : insn.opcode.arity = 2 → ∀ reg inner, graph.def? insn.src2 = some (reg, inner) →
    inner.size = insn.size

namespace Arithmetic

variable {graph : Graph} {number : Nat → Nat} {target : Nat} {insn : Instruction}
  {reg : Nat} {inner : Instruction} {value : Pseudo → Nat} {pseudo : Pseudo}

theorem widths (code : Arithmetic graph number target insn) : 0 < insn.size ∧ insn.size ≤ 64 := by
  have widths := code.typed.widths target insn code.defined
  have kind := code.kind
  unfold Instruction.Widths at widths
  cases opcode : insn.opcode <;> rw [opcode] at widths kind <;> first | exact widths | cases kind

theorem first (code : Arithmetic graph number target insn)
    (found : graph.def? insn.src1 = some (reg, inner)) : inner.size = insn.size := by
  obtain ⟨place, defined⟩ := def?_eq_some found
  have kind := code.kind
  have notSel : insn.opcode ≠ .sel := by
    intro sel
    rw [sel] at kind
    cases kind
  rw [code.typed.first target insn code.defined notSel reg inner place defined]
  unfold Instruction.sourceWidth
  cases opcode : insn.opcode <;> rw [opcode] at kind <;> first | rfl | cases kind

section

variable (code : Arithmetic graph number target insn)
include code

theorem before1 : Before number target insn.src1 :=
  before_operand code.wf code.defined (src1_mem_operands insn)

theorem before2 (two : insn.opcode.arity = 2) :
    Before number target insn.src2 :=
  before_operand code.wf code.defined (mem_src2_of_arity two)

/-- The operands of a definition come before what comes after the definition. -/
theorem before_inner (found : graph.def? pseudo = some (reg, inner))
    (before : Before number target pseudo) {slot : Slot} {other : Pseudo}
    (member : (slot, other) ∈ inner.operands) :
    Before number target other := by
  obtain ⟨place, defined⟩ := def?_eq_some found
  exact fun nr here => (before_operand code.wf defined member nr here).trans (before reg place)

theorem low_target (evaluates : Evaluates graph.defs value) :
    low insn.size value (.reg target) =
      insn.opcode.arith (low insn.size value insn.src1) (low insn.size value insn.src2) := by
  unfold low
  rw [evaluates.defined target insn code.defined, eval_arith code.kind, ofNat_toNat_self]

end

theorem low_def (found : graph.def? pseudo = some (reg, inner)) (size : inner.size = insn.size)
    (kind : inner.opcode.isArith = true) (evaluates : Evaluates graph.defs value) :
    low insn.size value pseudo =
      inner.opcode.arith (low insn.size value inner.src1) (low insn.size value inner.src2) := by
  obtain ⟨rfl, defined⟩ := def?_eq_some found
  unfold low
  rw [evaluates.defined reg inner defined, eval_arith kind, size, ofNat_toNat_self]

theorem mod_eq_of_low {size x y : Nat} (same : BitVec.ofNat size x = BitVec.ofNat size y) :
    x % 2 ^ size = y % 2 ^ size := by
  have numbers := congrArg BitVec.toNat same
  rwa [BitVec.toNat_ofNat, BitVec.toNat_ofNat] at numbers

/-- The target is replaced by a pseudo with the same low bits. -/
theorem keeps_replace (code : Arithmetic graph number target insn)
    (before : Before number target pseudo)
    (same : ∀ value, Evaluates graph.defs value → low insn.size value pseudo =
      insn.opcode.arith (low insn.size value insn.src1) (low insn.size value insn.src2)) :
    KeepsTarget graph target insn ⟨graph, pseudo⟩ := by
  refine (keepsAs_replace_iff code.wf before).mpr fun value evaluates => ?_
  exact mod_eq_of_low ((same value evaluates).trans (code.low_target evaluates).symm)

/-- The instruction is replaced by one that computes the same word. -/
theorem keeps_retarget (code : Arithmetic graph number target insn) {new : Instruction}
    (size : new.size = insn.size) (kind : new.opcode.isArith = true)
    (before : Before number target new.src1)
    (before' : new.opcode.arity = 2 → Before number target new.src2)
    (same : ∀ value, Evaluates graph.defs value →
      new.opcode.arith (low insn.size value new.src1) (low insn.size value new.src2) =
        insn.opcode.arith (low insn.size value insn.src1) (low insn.size value insn.src2)) :
    KeepsTarget graph target insn (graph.retarget target new) := by
  refine (keepsAs_target_iff code.wf code.defined ?_).mpr fun value evaluates => ?_
  · intro slot other member
    have arity : new.opcode.arity = 1 ∨ new.opcode.arity = 2 := by
      cases opcode : new.opcode <;> rw [opcode] at kind <;>
        first | exact Or.inl rfl | exact Or.inr rfl | cases kind
    rcases arity with one | two
    · exact before_of_single member one before
    · exact before_of_two member two before (before' two)
  · refine mod_eq_of_low ?_
    have target := code.low_target evaluates
    unfold low at target
    rw [eval_arith kind, size, ofNat_toNat_self, target]
    exact same value evaluates

theorem keeps_none : KeepsTarget graph target insn ⟨graph, .reg target⟩ :=
  BitOperation.keeps_none

theorem low_first (code : Arithmetic graph number target insn)
    (found : graph.def? insn.src1 = some (reg, inner)) {opcode : Opcode}
    (same : inner.opcode = opcode) (kind : opcode.isArith = true)
    (evaluates : Evaluates graph.defs value) :
    low insn.size value insn.src1 =
      opcode.arith (low insn.size value inner.src1) (low insn.size value inner.src2) := by
  subst same
  exact low_def found (code.first found) kind evaluates

theorem low_second (code : Arithmetic graph number target insn) (two : insn.opcode.arity = 2)
    (found : graph.def? insn.src2 = some (reg, inner)) {opcode : Opcode}
    (same : inner.opcode = opcode) (kind : opcode.isArith = true)
    (evaluates : Evaluates graph.defs value) :
    low insn.size value insn.src2 =
      opcode.arith (low insn.size value inner.src1) (low insn.size value inner.src2) := by
  subst same
  exact low_def found (code.second two reg inner found) kind evaluates

/-! ### `simplify_unop` -/

theorem keeps_simplifyNot (code : Arithmetic graph number target insn) (own : insn.opcode = .not)
    (found : graph.def? insn.src1 = some (reg, inner)) :
    KeepsTarget graph target insn (simplifyNot graph target insn inner) := by
  obtain ⟨pos, le⟩ := code.widths
  have first := code.before_inner found code.before1 (src1_mem_operands inner)
  have second : inner.opcode.arity = 2 → Before number target inner.src2 :=
    fun two => code.before_inner found code.before1 (mem_src2_of_arity two)
  unfold simplifyNot
  cases opcode : inner.opcode with
  | add =>
    dsimp only
    split
    · rename_i c constant
      refine code.keeps_retarget rfl rfl (before_val _) (fun _ => first) fun value evaluates => ?_
      rw [own, code.low_first found opcode rfl evaluates, constant, low_val evaluates]
      dsimp only [foldedUnop]
      rw [low_folded pos le evaluates rfl]
      change ~~~c.setWidth insn.size - low insn.size value inner.src1 =
        ~~~(low insn.size value inner.src1 + c.setWidth insn.size)
      rw [not_eq, not_eq]
      ring
    · exact keeps_none
  | neg =>
    refine code.keeps_retarget rfl rfl first (fun _ => before_val _) fun value evaluates => ?_
    rw [own, code.low_first found opcode rfl evaluates]
    dsimp only
    rw [low_val evaluates]
    change low insn.size value inner.src1 - (1#64).setWidth insn.size =
      ~~~(-low insn.size value inner.src1)
    rw [setWidth_one, not_eq, neg_neg]
  | not =>
    refine code.keeps_replace first fun value evaluates => ?_
    rw [own, code.low_first found opcode rfl evaluates]
    exact BitVec.not_not.symm
  | sub =>
    dsimp only
    split
    · rename_i c constant
      refine code.keeps_retarget rfl rfl (second (by rw [opcode]; rfl)) (fun _ => before_val _)
        fun value evaluates => ?_
      rw [own, code.low_first found opcode rfl evaluates, constant, low_val evaluates]
      dsimp only [foldedUnop]
      rw [low_folded pos le evaluates rfl]
      change low insn.size value inner.src2 + ~~~c.setWidth insn.size =
        ~~~(c.setWidth insn.size - low insn.size value inner.src2)
      rw [not_eq, not_eq]
      ring
    · exact keeps_none
  | xor =>
    dsimp only
    split
    · rename_i c constant
      refine code.keeps_retarget rfl rfl first (fun _ => before_val _) fun value evaluates => ?_
      rw [own, code.low_first found opcode rfl evaluates, constant, low_val evaluates]
      dsimp only [foldedUnop]
      rw [low_folded pos le evaluates rfl]
      change low insn.size value inner.src1 ^^^ ~~~c.setWidth insn.size =
        ~~~(low insn.size value inner.src1 ^^^ c.setWidth insn.size)
      exact BitVec.not_xor_right.symm
    · exact keeps_none
  | _ => exact keeps_none

theorem keeps_simplifyNeg (code : Arithmetic graph number target insn) (own : insn.opcode = .neg)
    (found : graph.def? insn.src1 = some (reg, inner)) :
    KeepsTarget graph target insn (simplifyNeg graph target insn inner) := by
  obtain ⟨pos, le⟩ := code.widths
  have first := code.before_inner found code.before1 (src1_mem_operands inner)
  unfold simplifyNeg
  cases opcode : inner.opcode with
  | add =>
    dsimp only
    split
    · rename_i c constant
      refine code.keeps_retarget rfl rfl (before_val _) (fun _ => first) fun value evaluates => ?_
      rw [own, code.low_first found opcode rfl evaluates, constant, low_val evaluates]
      dsimp only [foldedUnop]
      rw [low_folded pos le evaluates rfl]
      change -c.setWidth insn.size - low insn.size value inner.src1 =
        -(low insn.size value inner.src1 + c.setWidth insn.size)
      ring
    · exact keeps_none
  | neg =>
    refine code.keeps_replace first fun value evaluates => ?_
    rw [own, code.low_first found opcode rfl evaluates]
    exact (neg_neg _).symm
  | not =>
    refine code.keeps_retarget rfl rfl first (fun _ => before_val _) fun value evaluates => ?_
    rw [own, code.low_first found opcode rfl evaluates]
    dsimp only
    rw [low_val evaluates]
    change low insn.size value inner.src1 + (1#64).setWidth insn.size =
      -~~~low insn.size value inner.src1
    rw [setWidth_one, not_eq]
    ring
  | sub =>
    have second := code.before_inner found code.before1
      (mem_src2_of_arity (by rw [opcode]; rfl))
    refine code.keeps_retarget rfl rfl second (fun _ => first) fun value evaluates => ?_
    rw [own, code.low_first found opcode rfl evaluates]
    exact (neg_sub _ _).symm
  | _ => exact keeps_none

theorem keeps_simplifyUnop (code : Arithmetic graph number target insn)
    (own : insn.opcode = .not ∨ insn.opcode = .neg) :
    KeepsTarget graph target insn (simplifyUnop graph target insn) := by
  obtain ⟨pos, le⟩ := code.widths
  unfold simplifyUnop
  split
  · rename_i c constant
    -- The constant is folded.
    unfold simplifyConstantUnop
    rcases own with own | own
    · rw [own]
      refine code.keeps_replace (before_val _) fun value evaluates => ?_
      rw [own, constant, low_val evaluates, low_val evaluates, setWidth_and_bitsMask pos le,
        BitVec.setWidth_not le]
      rfl
    · rw [own]
      refine code.keeps_replace (before_val _) fun value evaluates => ?_
      rw [own, constant, low_val evaluates, low_val evaluates, setWidth_and_bitsMask pos le,
        BitVec.setWidth_neg_of_le le]
      rfl
  · cases found : graph.def? insn.src1 with
    | none => exact keeps_none
    | some definition =>
      obtain ⟨reg, inner⟩ := definition
      rcases own with own | own
      · rw [own]
        exact code.keeps_simplifyNot own found
      · rw [own]
        exact code.keeps_simplifyNeg own found

section

variable (code : Arithmetic graph number target insn)
include code

/-- `(C - y) + D --> eval(C+D) - y`, in an addition that has the value of the target. -/
theorem keeps_constRightadd {added new : Instruction} {d : BitVec 64}
    (size : added.size = insn.size) (source : added.src1 = insn.src1)
    (rewritten : simplifyConstRightadd graph added d = some new)
    (same : ∀ value, Evaluates graph.defs value → low insn.size value insn.src1 + d.setWidth
      insn.size = insn.opcode.arith (low insn.size value insn.src1)
      (low insn.size value insn.src2)) :
    KeepsTarget graph target insn (graph.retarget target new) := by
  obtain ⟨pos, le⟩ := code.widths
  unfold simplifyConstRightadd at rewritten
  rw [source] at rewritten
  cases found : graph.def? insn.src1 with
  | none =>
    rw [found] at rewritten
    cases rewritten
  | some definition =>
    obtain ⟨reg, inner⟩ := definition
    rw [found] at rewritten
    dsimp only at rewritten
    split at rewritten
    · rename_i c opcode constant
      cases rewritten
      have second := code.before_inner found code.before1
        (mem_src2_of_arity (by rw [opcode]; rfl))
      refine code.keeps_retarget size rfl (before_val _) (fun _ => second)
        fun value evaluates => ?_
      rw [← same value evaluates, code.low_first found opcode rfl evaluates, constant,
        low_val evaluates, size]
      dsimp only
      rw [low_folded pos le evaluates rfl]
      change c.setWidth insn.size + d.setWidth insn.size - low insn.size value inner.src2 =
        c.setWidth insn.size - low insn.size value inner.src2 + d.setWidth insn.size
      ring
    · cases rewritten

theorem keeps_neutral {c : BitVec 64} (constant : insn.src2 = .val c)
    (kind : insn.opcode = .add ∨ insn.opcode = .sub ∨ insn.opcode = .or ∨ insn.opcode = .xor)
    (zero : c = 0) : KeepsTarget graph target insn ⟨graph, insn.src1⟩ := by
  refine code.keeps_replace code.before1 fun value evaluates => ?_
  have nothing : low insn.size value insn.src2 = 0 := by
    rw [constant, low_val evaluates, zero]
    exact BitVec.setWidth_zero _ _
  rw [nothing]
  rcases kind with kind | kind | kind | kind <;> rw [kind]
  · exact (add_zero _).symm
  · exact (sub_zero _).symm
  · exact BitVec.or_zero.symm
  · exact BitVec.xor_zero.symm

theorem keeps_constantAdd (own : insn.opcode = .add) {c : BitVec 64}
    (constant : insn.src2 = .val c) :
    KeepsTarget graph target insn (constantAdd graph target insn c) := by
  unfold constantAdd
  split_ifs with zero
  · exact code.keeps_neutral constant (Or.inl own) zero
  · cases rewritten : simplifyConstRightadd graph insn c with
    | none => exact keeps_none
    | some new =>
      refine code.keeps_constRightadd rfl rfl rewritten fun value evaluates => ?_
      rw [own, constant, low_val evaluates]
      rfl

theorem keeps_constantSub (own : insn.opcode = .sub) {c : BitVec 64}
    (constant : insn.src2 = .val c) :
    KeepsTarget graph target insn (constantSub graph target insn c) := by
  obtain ⟨pos, le⟩ := code.widths
  -- Adding the negated constant is subtracting the constant.
  have same : ∀ value, Evaluates graph.defs value →
      low insn.size value insn.src1 +
          ((evalOp .neg insn.size c 0).getD 0).setWidth insn.size =
        insn.opcode.arith (low insn.size value insn.src1) (low insn.size value insn.src2) := by
    intro value evaluates
    rw [setWidth_evalOp pos le rfl, own, constant, low_val evaluates]
    exact (sub_eq_add_neg _ _).symm
  unfold constantSub
  dsimp only
  split_ifs with zero
  · exact code.keeps_neutral constant (Or.inr (Or.inl own)) zero
  · split
    · rename_i new rewritten
      exact @keeps_constRightadd _ _ _ _ code
        { insn with opcode := .add, src2 := .val ((evalOp .neg insn.size c 0).getD 0) } new _ rfl
          rfl rewritten same
    · refine code.keeps_retarget rfl rfl code.before1 (fun _ => before_val _)
        fun value evaluates => ?_
      rw [← same value evaluates]
      dsimp only
      rw [low_val evaluates]
      rfl

end

theorem setWidth_allOnes {size : Nat} (pos : 0 < size) (le : size ≤ 64) {c : BitVec 64}
    (ones : c &&& bitsMask size = bitsMask size) : c.setWidth size = BitVec.allOnes size := by
  apply BitVec.eq_of_getLsbD_eq
  intro i inside
  have bit := @MaskContext.bit_of_and_eq _ _ ones i
    (by rw [getLsbD_bitsMask i pos le, decide_eq_true inside])
  rw [BitVec.getLsbD_setWidth, bit, BitVec.getLsbD_allOnes, decide_eq_true inside, Bool.and_true]

theorem setWidth_neg_one {size : Nat} (pos : 0 < size) (le : size ≤ 64) {c : BitVec 64}
    (ones : c ||| ~~~bitsMask size = -1) : c.setWidth size = -1 := by
  have all : c.setWidth size = BitVec.allOnes size := by
    apply BitVec.eq_of_getLsbD_eq
    intro i inside
    have bit := congrArg (BitVec.getLsbD · i) ones
    rw [BitVec.getLsbD_or, BitVec.getLsbD_not, getLsbD_bitsMask i pos le, decide_eq_true inside,
      Bool.not_true, Bool.and_false, Bool.or_false,
      show (-1 : BitVec 64) = BitVec.allOnes 64 from BitVec.neg_one_eq_allOnes,
      BitVec.getLsbD_allOnes] at bit
    rw [BitVec.getLsbD_setWidth, bit, BitVec.getLsbD_allOnes, decide_eq_true inside,
      decide_eq_true (inside.trans_le le), Bool.and_self]
  rw [all]
  exact BitVec.neg_one_eq_allOnes.symm

theorem keeps_simplifyMulDiv (code : Arithmetic graph number target insn)
    (own : insn.opcode = .mul) {c : BitVec 64} (constant : insn.src2 = .val c) :
    KeepsTarget graph target insn (simplifyMulDiv graph target insn c) := by
  obtain ⟨pos, le⟩ := code.widths
  have two : insn.opcode.arity = 2 := by
    rw [own]
    rfl
  have factor : ∀ {value}, Evaluates graph.defs value →
      low insn.size value insn.src2 = c.setWidth insn.size := by
    intro value evaluates
    rw [constant, low_val evaluates]
  unfold simplifyMulDiv
  split_ifs with one zero multiplied positive minus
  · refine code.keeps_replace code.before1 fun value evaluates => ?_
    rw [own, factor evaluates, one]
    change _ = low insn.size value insn.src1 * (1#64).setWidth insn.size
    rw [setWidth_one, mul_one]
  · refine code.keeps_replace (code.before2 two) fun value evaluates => ?_
    rw [own, factor evaluates, zero.2]
    change (0#64).setWidth insn.size =
      low insn.size value insn.src1 * (0#64).setWidth insn.size
    rw [BitVec.setWidth_zero]
    exact (mul_zero _).symm
  · exact keeps_none
  · refine code.keeps_retarget rfl rfl code.before1 (fun one => ?_) fun value evaluates => ?_
    · cases one
    · rw [own, factor evaluates, setWidth_neg_one pos le minus]
      exact (mul_neg_one _).symm
  · exact keeps_none
  · exact keeps_none

theorem keeps_simplifyConstantRightside (code : Arithmetic graph number target insn)
    (tainted : Nat → Bool) (two : insn.opcode.arity = 2) {c : BitVec 64}
    (constant : insn.src2 = .val c) :
    KeepsCast graph target insn (simplifyConstantRightside graph target insn tainted c) := by
  obtain ⟨pos, le⟩ := code.widths
  have kind := code.kind
  have factor : ∀ {value}, Evaluates graph.defs value →
      low insn.size value insn.src2 = c.setWidth insn.size := by
    intro value evaluates
    rw [constant, low_val evaluates]
  unfold simplifyConstantRightside
  cases own : insn.opcode with
  | add => exact keepsCast_of_keepsTarget (code.keeps_constantAdd own constant)
  | sub => exact keepsCast_of_keepsTarget (code.keeps_constantSub own constant)
  | mul => exact keepsCast_of_keepsTarget (code.keeps_simplifyMulDiv own constant)
  | or =>
    refine keepsCast_of_keepsTarget ?_
    dsimp only
    split_ifs with ones
    · refine code.keeps_replace (code.before2 two) fun value evaluates => ?_
      rw [own, factor evaluates, setWidth_allOnes pos le ones]
      exact BitVec.or_allOnes.symm
    · unfold neutralZero
      split_ifs with zero
      · exact code.keeps_neutral constant (Or.inr (Or.inr (Or.inl own))) zero
      · exact keeps_none
  | xor =>
    refine keepsCast_of_keepsTarget ?_
    dsimp only
    split_ifs with ones
    · refine code.keeps_retarget rfl rfl code.before1 (fun one => ?_) fun value evaluates => ?_
      · cases one
      · rw [own, factor evaluates, setWidth_allOnes pos le ones]
        exact BitVec.xor_allOnes.symm
    · unfold neutralZero
      split_ifs with zero
      · exact code.keeps_neutral constant (Or.inr (Or.inr (Or.inr own))) zero
      · exact keeps_none
  | and =>
    dsimp only
    split_ifs with zero ones
    · refine keepsCast_of_keepsTarget ?_
      refine code.keeps_replace (code.before2 two) fun value evaluates => ?_
      rw [own, factor evaluates, zero]
      change (0#64).setWidth insn.size =
        low insn.size value insn.src1 &&& (0#64).setWidth insn.size
      rw [BitVec.setWidth_zero]
      exact BitVec.and_zero.symm
    · refine keepsCast_of_keepsTarget ?_
      refine code.keeps_replace code.before1 fun value evaluates => ?_
      rw [own, factor evaluates, setWidth_allOnes pos le ones]
      exact BitVec.and_allOnes.symm
    · exact ConstantMask.keeps_simplifyConstantMask
        ⟨code.wf, code.typed, code.defined, own, constant⟩ tainted
  | not | neg =>
    rw [own] at two
    cases two
  | _ =>
    rw [own] at kind
    cases kind

/-! ### Constants on the left -/

theorem keeps_replaceWithNeg (code : Arithmetic graph number target insn)
    (before : Before number target pseudo)
    (same : ∀ value, Evaluates graph.defs value → -low insn.size value pseudo =
      insn.opcode.arith (low insn.size value insn.src1) (low insn.size value insn.src2)) :
    KeepsTarget graph target insn (replaceWithNeg graph target insn pseudo) := by
  refine code.keeps_retarget rfl rfl before (fun two => ?_) same
  cases two

theorem keeps_constLeftsub (code : Arithmetic graph number target insn) (own : insn.opcode = .sub)
    {c : BitVec 64} (constant : insn.src1 = .val c)
    (found : graph.def? insn.src2 = some (reg, inner)) :
    KeepsTarget graph target insn (simplifyConstLeftsub graph target insn c inner) := by
  obtain ⟨pos, le⟩ := code.widths
  have two : insn.opcode.arity = 2 := by
    rw [own]
    rfl
  have first := code.before_inner found (code.before2 two) (src1_mem_operands inner)
  unfold simplifyConstLeftsub
  cases opcode : inner.opcode with
  | add =>
    dsimp only
    split
    · rename_i d constant'
      refine code.keeps_retarget rfl ?_ (before_val _) (fun _ => first) fun value evaluates => ?_
      · dsimp only
        rw [own]
        rfl
      · rw [constant, code.low_second two found opcode rfl evaluates, constant',
          low_val evaluates, low_val evaluates]
        dsimp only
        rw [low_folded pos le evaluates rfl, own]
        change c.setWidth insn.size - d.setWidth insn.size - low insn.size value inner.src1 =
          c.setWidth insn.size - (low insn.size value inner.src1 + d.setWidth insn.size)
        ring
    · exact keeps_none
  | sub =>
    dsimp only
    split
    · rename_i d constant'
      have second := code.before_inner found (code.before2 two)
        (mem_src2_of_arity (by rw [opcode]; rfl))
      refine code.keeps_retarget rfl rfl second (fun _ => before_val _) fun value evaluates => ?_
      rw [constant, code.low_second two found opcode rfl evaluates, constant',
        low_val evaluates, low_val evaluates]
      dsimp only
      rw [low_folded pos le evaluates rfl, own]
      change low insn.size value inner.src2 + (c.setWidth insn.size - d.setWidth insn.size) =
        c.setWidth insn.size - (d.setWidth insn.size - low insn.size value inner.src2)
      ring
    · exact keeps_none
  | _ => exact keeps_none

theorem keeps_simplifyConstantLeftside (code : Arithmetic graph number target insn)
    (two : insn.opcode.arity = 2) {c : BitVec 64} (constant : insn.src1 = .val c) :
    KeepsTarget graph target insn (simplifyConstantLeftside graph target insn c) := by
  have kind := code.kind
  have before := code.before2 two
  have nothing : ∀ {value}, c = 0 → Evaluates graph.defs value →
      low insn.size value insn.src1 = 0 := by
    intro value zero evaluates
    rw [constant, low_val evaluates, zero]
    exact BitVec.setWidth_zero _ _
  unfold simplifyConstantLeftside
  cases own : insn.opcode with
  | add =>
    dsimp only
    split_ifs with zero
    · refine code.keeps_replace before fun value evaluates => ?_
      rw [own, nothing zero evaluates]
      exact (zero_add _).symm
    · exact keeps_none
  | or =>
    dsimp only
    split_ifs with zero
    · refine code.keeps_replace before fun value evaluates => ?_
      rw [own, nothing zero evaluates]
      exact BitVec.zero_or.symm
    · exact keeps_none
  | xor =>
    dsimp only
    split_ifs with zero
    · refine code.keeps_replace before fun value evaluates => ?_
      rw [own, nothing zero evaluates]
      exact BitVec.zero_xor.symm
    · exact keeps_none
  | and =>
    dsimp only
    split_ifs with zero
    · refine code.keeps_replace code.before1 fun value evaluates => ?_
      rw [own, nothing zero evaluates]
      exact BitVec.zero_and.symm
    · exact keeps_none
  | mul =>
    dsimp only
    split_ifs with zero
    · refine code.keeps_replace code.before1 fun value evaluates => ?_
      rw [own, nothing zero evaluates]
      exact (zero_mul _).symm
    · exact keeps_none
  | sub =>
    dsimp only
    split_ifs with zero
    · refine code.keeps_replaceWithNeg before fun value evaluates => ?_
      rw [own, nothing zero evaluates]
      exact (zero_sub _).symm
    · cases found : graph.def? insn.src2 with
      | none => exact keeps_none
      | some definition => exact code.keeps_constLeftsub own constant found
  | not | neg =>
    rw [own] at two
    cases two
  | _ =>
    rw [own] at kind
    cases kind

section

variable (code : Arithmetic graph number target insn) (own : insn.opcode = .sub)
include code own

theorem subLeft_spec (rewritten : subLeft graph insn = some pseudo) :
    KeepsTarget graph target insn ⟨graph, pseudo⟩ := by
  unfold subLeft at rewritten
  cases found : graph.def? insn.src1 with
  | none =>
    rw [found] at rewritten
    cases rewritten
  | some definition =>
    obtain ⟨reg, inner⟩ := definition
    rw [found] at rewritten
    dsimp only at rewritten
    split_ifs at rewritten with opcode first second
    · cases rewritten
      have before := code.before_inner found code.before1
        (mem_src2_of_arity (by rw [opcode]; rfl))
      refine code.keeps_replace before fun value evaluates => ?_
      rw [own, code.low_first found opcode rfl evaluates, ← first]
      exact (add_sub_cancel_left _ _).symm
    · cases rewritten
      have before := code.before_inner found code.before1 (src1_mem_operands inner)
      refine code.keeps_replace before fun value evaluates => ?_
      rw [own, code.low_first found opcode rfl evaluates, ← second]
      exact (add_sub_cancel_right _ _).symm

theorem keeps_subRight :
    KeepsTarget graph target insn (subRight graph target insn) := by
  have two : insn.opcode.arity = 2 := by
    rw [own]
    rfl
  unfold subRight
  cases found : graph.def? insn.src2 with
  | none => exact keeps_none
  | some definition =>
    obtain ⟨reg, inner⟩ := definition
    have before := code.before_inner found (code.before2 two) (src1_mem_operands inner)
    dsimp only
    split
    · rename_i opcode
      have before' := code.before_inner found (code.before2 two)
        (mem_src2_of_arity (by rw [opcode]; rfl))
      split_ifs with first second
      · refine code.keeps_replaceWithNeg before' fun value evaluates => ?_
        rw [own, code.low_second two found opcode rfl evaluates, first]
        exact (sub_add_cancel_left _ _).symm
      · refine code.keeps_replaceWithNeg before fun value evaluates => ?_
        rw [own, code.low_second two found opcode rfl evaluates, second]
        exact (sub_add_cancel_right _ _).symm
      · exact keeps_none
    · rename_i opcode
      refine code.keeps_retarget rfl rfl code.before1 (fun _ => before) fun value evaluates => ?_
      rw [own, code.low_second two found opcode rfl evaluates]
      exact (sub_neg_eq_add _ _).symm
    · exact keeps_none

theorem keeps_simplifySub :
    KeepsTarget graph target insn (simplifySub graph target insn) := by
  unfold simplifySub
  cases rewritten : subLeft graph insn with
  | some pseudo => exact code.subLeft_spec own rewritten
  | none => exact code.keeps_subRight own

end

section

variable (code : Arithmetic graph number target insn) (own : insn.opcode = .add)
include code own

/-- A sum of two products with a common factor. -/
theorem keeps_commonMul {p1 p2 : Pseudo} (sides : Sides insn p1 p2) {regr : Nat}
    {defr : Instruction} (found : graph.def? p1 = some (reg, inner))
    (foundr : graph.def? p2 = some (regr, defr))
    (sizes : inner.size = insn.size ∧ defr.size = insn.size) (opcode : inner.opcode = .mul)
    (opcoder : defr.opcode = .mul) :
    KeepsTarget graph target insn
      ((commonRule graph inner regr defr).apply graph target insn) := by
  have two : insn.opcode.arity = 2 ∧ inner.opcode.arity = 2 ∧ defr.opcode.arity = 2 := by
    rw [own, opcode, opcoder]
    exact ⟨rfl, rfl, rfl⟩
  have product : ∀ {pseudo reg inner} {value : Pseudo → Nat},
      graph.def? pseudo = some (reg, inner) → inner.size = insn.size → inner.opcode = .mul →
      Evaluates graph.defs value →
      low insn.size value inner.src1 * low insn.size value inner.src2 =
        low insn.size value pseudo := by
    intro pseudo reg inner value here size opcode evaluates
    rw [low_def here size (by rw [opcode]; rfl) evaluates, opcode]
    rfl
  refine @keeps_commonRule _ _ _ _ _ _ _ _ _ _ code.wf code.defined two.1 sides found foundr two.2
    (fun env a c p => low insn.size env a * low insn.size env c = low insn.size env p) ?_ ?_ ?_ ?_
  · exact fun same => (mul_comm _ _).trans same
  · exact fun evaluates => product found sizes.1 opcode evaluates
  · exact fun evaluates => product foundr sizes.2 opcoder evaluates
  · intro env evaluates a b c left right v v'
    have moved := @eval_arith { defr with opcode := insn.opcode, src1 := a, src2 := b } code.kind
      (env a) (env b) v'
    dsimp only at moved
    rw [moved, eval_arith (by exact (congrArg Opcode.isArith opcoder).trans rfl)]
    have sum : low insn.size env p1 + low insn.size env p2 =
        low insn.size env (.reg target) := by
      rw [code.low_target evaluates, own]
      rcases sides with ⟨rfl, rfl⟩ | ⟨rfl, rfl⟩
      · rfl
      · exact add_comm _ _
    have number : (low insn.size env (.reg target)).toNat = env (.reg target) := by
      unfold low
      rw [evaluates.defined target insn code.defined, eval_arith code.kind, ofNat_toNat_self]
    rw [← number, ← sum, ← left, ← right]
    dsimp only
    rw [sizes.2, ofNat_toNat_self, own, opcoder]
    exact congrArg BitVec.toNat (add_mul _ _ _)

theorem keeps_addOneSide {p1 p2 : Pseudo} (sides : Sides insn p1 p2) :
    KeepsTarget graph target insn
      ((simplifyAddOneSide graph p1 p2).apply graph target insn) := by
  have two : insn.opcode.arity = 2 := by
    rw [own]
    rfl
  obtain ⟨before, before'⟩ := before_sides code.wf code.defined two sides
  have size : ∀ {pseudo reg inner}, pseudo = p1 ∨ pseudo = p2 →
      graph.def? pseudo = some (reg, inner) → inner.size = insn.size := by
    rintro pseudo reg inner (rfl | rfl) found
    · rcases sides with ⟨rfl, -⟩ | ⟨rfl, -⟩
      · exact code.first found
      · exact code.second two reg inner found
    · rcases sides with ⟨-, rfl⟩ | ⟨-, rfl⟩
      · exact code.second two reg inner found
      · exact code.first found
  have sum : ∀ value, insn.opcode.arith (low insn.size value insn.src1)
      (low insn.size value insn.src2) = low insn.size value p1 + low insn.size value p2 := by
    intro value
    rw [own]
    rcases sides with ⟨rfl, rfl⟩ | ⟨rfl, rfl⟩
    · rfl
    · exact add_comm _ _
  unfold simplifyAddOneSide
  cases found : graph.def? p1 with
  | none => exact keeps_none
  | some definition =>
    obtain ⟨reg, inner⟩ := definition
    have first := code.before_inner found before (src1_mem_operands inner)
    have width := size (Or.inl rfl) found
    dsimp only
    split
    · rename_i opcode
      cases foundr : graph.def? p2 with
      | none => exact keeps_none
      | some definition =>
        obtain ⟨regr, defr⟩ := definition
        dsimp only
        split_ifs with opcoder
        · exact code.keeps_commonMul own sides found foundr
            ⟨width, size (Or.inr rfl) foundr⟩ opcode opcoder
        · exact keeps_none
    · rename_i opcode
      refine code.keeps_retarget rfl rfl before' (fun _ => first) fun value evaluates => ?_
      rw [sum, low_def found width (by rw [opcode]; rfl) evaluates, opcode]
      exact (neg_add_eq_sub _ _).symm
    · rename_i opcode
      split_ifs with same
      · refine code.keeps_replace first fun value evaluates => ?_
        rw [sum, low_def found width (by rw [opcode]; rfl) evaluates, opcode, same]
        exact (sub_add_cancel _ _).symm
      · exact keeps_none
    · exact keeps_none

theorem keeps_simplifyAdd :
    KeepsTarget graph target insn (simplifySides graph target insn) := by
  have one := code.keeps_addOneSide own (Or.inl ⟨rfl, rfl⟩)
  have two := code.keeps_addOneSide own (Or.inr ⟨rfl, rfl⟩)
  unfold simplifySides sideRule
  rw [own]
  dsimp only
  cases rule : simplifyAddOneSide graph insn.src1 insn.src2 with
  | none => exact two
  | _ =>
    rw [rule] at one
    exact one

end

/-! ### `simplify_associative_binop` -/

theorem keeps_simplifyAssociativeBinop (code : Arithmetic graph number target insn)
    (leafType : Nat → LeafType) (associative : insn.opcode.isAssociative = true) :
    KeepsCast graph target insn
      ⟨simplifyAssociativeBinop leafType graph target insn, .reg target⟩ := by
  obtain ⟨pos, le⟩ := code.widths
  have two := arity_of_isAssociative associative
  unfold simplifyAssociativeBinop
  split_ifs with simple
  · cases found : graph.def? insn.src1 with
    | none => exact keepsCast_none
    | some definition =>
      obtain ⟨reg, inner⟩ := definition
      obtain ⟨place, defined⟩ := def?_eq_some found
      have first := code.before_inner found code.before1 (src1_mem_operands inner)
      dsimp only
      by_cases tests : reg ≠ target ∧ inner.opcode = insn.opcode ∧
          inner.src2.isSimple leafType = true
      · rw [if_pos tests]
        obtain ⟨different, opcode, simple'⟩ := tests
        have twoInner : inner.opcode.arity = 2 := opcode ▸ two
        split
        · rename_i c k constant' constant
          cases folds : evalOp insn.opcode insn.size k c with
          | none => exact keepsCast_none
          | some result =>
            -- `(x # C) # K --> x # eval(K # C)`
            refine keepsCast_of_keepsTarget (code.keeps_retarget rfl code.kind first
              (fun _ => before_val _) fun value evaluates => ?_)
            have fold := setWidth_evalOp pos le code.kind k c
            rw [folds] at fold
            dsimp only at fold ⊢
            rw [code.low_first found opcode code.kind evaluates, constant, constant',
              low_val evaluates, low_val evaluates, low_val evaluates,
              arith_assoc associative]
            exact congrArg _ (fold.trans (arith_comm associative _ _))
        · split_ifs with swap
          · -- `(x # y) # z -> (z # y) # x`
            obtain ⟨-, movable⟩ := swap
            have leaf : ∀ {user}, Before number user insn.src2 := by
              rintro user nr here
              rw [here] at simple
              cases simple
            refine (keepsCast_pair_iff code.wf code.defined found (oneUse_of_canMoveTo movable)
              ?_ ?_ ?_).mpr fun value evaluates => mod_two_pow_eq_iff.mp (mod_eq_of_low ?_)
            · exact place
            · exact fun slot other member => before_of_two member two code.before1 first
            · exact fun slot other member => before_of_two member twoInner leaf
                (before_operand code.wf defined (mem_src2_of_arity twoInner))
            · have size := code.first found
              have target' := code.low_target evaluates
              rw [code.low_first found opcode code.kind evaluates] at target'
              unfold low at target'
              have apart : inner.src1 ≠ .reg reg := by
                intro here
                exact lt_irrefl _ (before_operand code.wf defined (src1_mem_operands inner) reg
                  here)
              dsimp only
              rw [afterEdit_of_ne _ _ apart, target',
                eval_arith (by exact code.kind), eval_arith (by exact opcode ▸ code.kind)]
              dsimp only
              rw [size, opcode, ofNat_toNat_self, ofNat_toNat_self]
              exact arith_swap associative _ _ _
          · exact keepsCast_none
      · rw [if_neg tests]
        exact keepsCast_none
  · exact keepsCast_none

end Arithmetic

/-! ## All rules -/

/-- The rules for arithmetic instructions keep the value of the target. -/
theorem arithmetic_keeps {graph : Graph} {number : Nat → Nat} {target : Nat} {insn : Instruction}
    (code : Arithmetic graph number target insn) (tainted : Nat → Bool)
    (leafType : Nat → LeafType) :
    (insn.opcode = .not ∨ insn.opcode = .neg →
      KeepsCast graph target insn (simplifyUnop graph target insn)) ∧
    (insn.opcode.arity = 2 → ∀ value, insn.src2 = .val value →
      KeepsCast graph target insn
        (simplifyConstantRightside graph target insn tainted value)) ∧
    (insn.opcode.arity = 2 → ∀ value, insn.src1 = .val value →
      KeepsCast graph target insn (simplifyConstantLeftside graph target insn value)) ∧
    (insn.opcode.isAssociative = true → KeepsCast graph target insn
      ⟨simplifyAssociativeBinop leafType graph target insn, .reg target⟩) ∧
    (insn.opcode = .add → KeepsCast graph target insn (simplifySides graph target insn)) ∧
    (insn.opcode = .sub → KeepsCast graph target insn (simplifySub graph target insn)) := by
  refine ⟨fun own => ?_, fun two value constant => ?_, fun two value constant => ?_,
    fun associative => ?_, fun own => ?_, fun own => ?_⟩
  · exact keepsCast_of_keepsTarget (code.keeps_simplifyUnop own)
  · exact code.keeps_simplifyConstantRightside tainted two constant
  · exact keepsCast_of_keepsTarget (code.keeps_simplifyConstantLeftside two constant)
  · exact code.keeps_simplifyAssociativeBinop leafType associative
  · exact keepsCast_of_keepsTarget (code.keeps_simplifyAdd own)
  · exact keepsCast_of_keepsTarget (code.keeps_simplifySub own)

def fiveMinus : List Instruction :=
  [⟨.sub, 32, 32, .val 5, .arg 0, .val 0⟩, ⟨.add, 32, 32, .reg 0, .val 3, .val 0⟩]

theorem arithmetic_fiveMinus :
    Arithmetic (straightLine fiveMinus) id 1 ⟨.add, 32, 32, .reg 0, .val 3, .val 0⟩ where
  wf := wellFormed_straightLine (by decide)
  typed := typed_pair rfl rfl ⟨⟨by decide, by decide⟩, by decide, by decide⟩
    ⟨fun _ => Pseudo.noConfusion, fun _ => Pseudo.noConfusion⟩ fun _ _ => Pseudo.noConfusion
  defined := rfl
  kind := rfl
  second := fun _ _ _ found => by cases found

theorem arithmetic_keeps_fiveMinus :
    KeepsCast (straightLine fiveMinus) 1 ⟨.add, 32, 32, .reg 0, .val 3, .val 0⟩
      (simplifyConstantRightside (straightLine fiveMinus) 1
        ⟨.add, 32, 32, .reg 0, .val 3, .val 0⟩ (fun _ => false) 3) :=
  (arithmetic_keeps arithmetic_fiveMinus (fun _ => false) fun _ => .arg).2.1 rfl 3 rfl

end SmatchFormal.Ir
