import SmatchFormal.Ir.MaskReader

/-!
# The rules of a cast

A cast of a comparison, of an `AND`, of a `NOT` or of another cast, bit by bit.  The rules
for a sign extension of a comparison and of an `AND` depend on the values of the operands.
-/

namespace SmatchFormal.Ir

/-- A cast in well-formed code.  A constant is reduced to the width that it is read at. -/
structure TypedCast (graph : Graph) (number : Nat → Nat) (target : Nat) (insn : Instruction) :
    Prop where
  wf : graph.WellFormed number
  typed : graph.Typed
  defined : graph.defs target = some insn
  kind : insn.opcode = .trunc ∨ insn.opcode = .zext ∨ insn.opcode = .sext
  constant : ∀ val, insn.src1 = .val val → val.toNat < 2 ^ insn.itype

namespace TypedCast

variable {graph : Graph} {number : Nat → Nat} {target : Nat} {insn : Instruction} {reg : Nat}
  {inner : Instruction} {value : Pseudo → Nat}

section

variable (cast : TypedCast graph number target insn)
include cast

theorem positive :
    (0 < insn.size ∧ insn.size ≤ 64) ∧ 0 < insn.itype ∧ insn.itype ≤ 64 := by
  have widths := cast.typed.widths target insn cast.defined
  unfold Instruction.Widths at widths
  rcases cast.kind with kind | kind | kind <;> rw [kind] at widths <;>
    exact ⟨⟨by omega, by omega⟩, by omega, by omega⟩

theorem truncWidths (kind : insn.opcode = .trunc) : insn.size < insn.itype := by
  have widths := cast.typed.widths target insn cast.defined
  unfold Instruction.Widths at widths
  rw [kind] at widths
  exact widths.2.1

theorem extendWidths (kind : insn.opcode = .zext ∨ insn.opcode = .sext) :
    insn.itype < insn.size := by
  have widths := cast.typed.widths target insn cast.defined
  unfold Instruction.Widths at widths
  rcases kind with kind | kind <;> rw [kind] at widths <;> exact widths.2.1

theorem before :
    Before number target insn.src1 :=
  before_operand cast.wf cast.defined (src1_mem_operands insn)

theorem sourceWidth :
    insn.opcode ≠ .sel ∧ insn.sourceWidth = insn.itype := by
  unfold Instruction.sourceWidth
  rcases cast.kind with kind | kind | kind <;> rw [kind] <;> exact ⟨Opcode.noConfusion, rfl⟩

end

section

variable (cast : TypedCast graph number target insn)
  (found : graph.def? insn.src1 = some (reg, inner))
include cast found

/-- The definition of the source has the width that the cast reads. -/
theorem width : inner.size = insn.itype := by
  obtain ⟨place, defined⟩ := def?_eq_some found
  obtain ⟨notSel, same⟩ := cast.sourceWidth
  rw [← same]
  exact cast.typed.first target insn cast.defined notSel reg inner place defined

theorem less : number reg < number target := by
  obtain ⟨place, -⟩ := def?_eq_some found
  exact cast.before reg place

theorem value_source (evaluates : Evaluates graph.defs value) :
    value (.reg target) = insn.eval (inner.eval (value inner.src1) (value inner.src2)
      (value inner.src3)) (value insn.src2) (value insn.src3) := by
  obtain ⟨place, defined⟩ := def?_eq_some found
  rw [evaluates.defined target insn cast.defined, place, evaluates.defined reg inner defined]

end

theorem keeps_none (graph : Graph) (target : Nat) (insn : Instruction) :
    KeepsCast graph target insn ⟨graph, .reg target⟩ :=
  keepsCast_none

/-- The cast is replaced by an instruction with operands of its source. -/
theorem keeps_retarget_iff (cast : TypedCast graph number target insn)
    {new : Instruction} (before : ∀ slot pseudo, (slot, pseudo) ∈ new.operands →
      Before number target pseudo) :
    KeepsCast graph target insn (graph.retarget target new) ↔
      ∀ value, Evaluates graph.defs value → ∀ i < insn.size,
        (new.eval (value new.src1) (value new.src2) (value new.src3)).testBit i =
          (value (.reg target)).testBit i :=
  keepsCast_retarget_iff cast.wf cast.defined before

theorem keeps_pair_iff (cast : TypedCast graph number target insn)
    (found : graph.def? insn.src1 = some (reg, inner)) (once : graph.oneUse reg = true)
    {new newDef : Instruction} (source : new.src1 = .reg reg)
    (operands : ∀ slot pseudo, (slot, pseudo) ∈ new.operands → Before number target pseudo)
    (operandsDef : ∀ slot pseudo, (slot, pseudo) ∈ newDef.operands → Before number reg pseudo) :
    KeepsCast graph target insn ((graph.setDef reg newDef).retarget target new) ↔
      ∀ value, Evaluates graph.defs value → ∀ i < insn.size,
        (new.eval (newDef.eval (value newDef.src1) (value newDef.src2) (value newDef.src3))
          (afterEdit value reg newDef new.src2) (afterEdit value reg newDef new.src3)).testBit i =
            (value (.reg target)).testBit i :=
  keepsCast_pair_iff cast.wf cast.defined found once source operands operandsDef

/-! ## Constants -/

theorem afterEdit_val (value : Pseudo → Nat) (reg : Nat) (newDef : Instruction) (n : BitVec 64) :
    afterEdit value reg newDef (.val n) = value (.val n) :=
  Function.update_of_ne (Pseudo.noConfusion) ..

/-- The bits of a constant that is extended with its sign. -/
theorem getLsbD_evalOperand {size : Nat} (pos : 0 < size) (le : size ≤ 64) {val : BitVec 64}
    (small : val.toNat < 2 ^ size) {i : Nat} (inside : i < 64) :
    (evalOperand size val).getLsbD i = val.getLsbD (min i (size - 1)) := by
  have narrow : (val.setWidth size).setWidth 64 = val := by
    apply BitVec.eq_of_toNat_eq
    rw [toNat_setWidth_of_le le, BitVec.toNat_setWidth, Nat.mod_eq_of_lt small]
  rw [← narrow, evalOperand_setWidth pos le, BitVec.getLsbD_signExtend, decide_eq_true inside,
    Bool.true_and, BitVec.getLsbD_setWidth, BitVec.getLsbD_setWidth]
  by_cases low : i < size
  · rw [if_pos low, Nat.min_eq_left (by omega), decide_eq_true inside, Bool.true_and]
    simp [low]
  · rw [if_neg low, Nat.min_eq_right (by omega), BitVec.msb_eq_getLsbD_last]
    simp [show size - 1 < 64 by omega]

theorem keeps_constant (cast : TypedCast graph number target insn) {val : BitVec 64}
    (source : insn.src1 = .val val) {res : BitVec 64}
    (folded : simplifyConstantUnop insn val = some res) :
    KeepsCast graph target insn ⟨graph, .val res⟩ := by
  obtain ⟨⟨posSize, leSize⟩, posType, leType⟩ := cast.positive
  have small := cast.constant val source
  refine keepsCast_of_keepsTarget ((keepsAs_replace_iff cast.wf (before_val res)).mpr ?_)
  intro value evaluates
  rw [mod_two_pow_eq_iff]
  intro i inside
  rw [evaluates.constant, evaluates.defined target insn cast.defined, source, evaluates.constant,
    testBit_toNat]
  unfold simplifyConstantUnop at folded
  rcases cast.kind with kind | kind | kind <;> rw [kind] at folded <;> cases folded <;>
    rw [BitVec.getLsbD_and, getLsbD_bitsMask i posSize leSize, decide_eq_true inside, Bool.and_true]
  · have low : i < insn.itype := inside.trans (cast.truncWidths kind)
    rw [testBit_zext _ _ _ _ (Or.inl kind), decide_eq_true inside, decide_eq_true low]
    rfl
  · rw [testBit_zext _ _ _ _ (Or.inr kind), decide_eq_true inside, Bool.true_and, testBit_toNat]
    by_cases low : i < insn.itype
    · rw [decide_eq_true low, Bool.true_and]
    · rw [decide_eq_false low, Bool.false_and]
      refine Nat.testBit_lt_two_pow (small.trans_le ?_)
      exact Nat.pow_le_pow_right (by decide) (not_lt.mp low)
  · rw [testBit_sext _ _ _ _ kind posType, decide_eq_true inside, Bool.true_and,
      getLsbD_evalOperand posType leType small (by omega)]
    rfl

section

variable (cast : TypedCast graph number target insn)
  (found : graph.def? insn.src1 = some (reg, inner))
include cast found

/-- The first operand of the source comes before the source and before the cast. -/
theorem before_inner :
    Before number reg inner.src1 ∧ Before number target inner.src1 := by
  obtain ⟨-, defined⟩ := def?_eq_some found
  have first := before_operand cast.wf defined (src1_mem_operands inner)
  exact ⟨first, fun nr here => (first nr here).trans (cast.less found)⟩

theorem keeps_truncAnd (once : graph.oneUse reg = true) (kind : insn.opcode = .trunc)
    (opcode : inner.opcode = .and) {val : BitVec 64} (constant : inner.src2 = .val val) :
    KeepsCast graph target insn
      ((graph.setDef reg
        { inner with opcode := .trunc, itype := inner.size, size := insn.size }).retarget target
          { insn with opcode := .and, src2 := .val (val &&& ((1#64 <<< insn.size) - 1)) }) := by
  have width := cast.width found
  have narrow := cast.truncWidths kind
  have wide := cast.positive.2.2
  refine (cast.keeps_pair_iff found once ?_ ?_ ?_).mpr ?_
  · exact (def?_eq_some found).1
  · exact fun _ _ member => before_of_two member rfl cast.before (before_val _)
  · exact fun _ _ member => before_of_single member rfl (cast.before_inner found).1
  intro value evaluates i inside
  have low : i < insn.itype := inside.trans narrow
  rw [cast.value_source found evaluates, testBit_and _ _ _ _ rfl, afterEdit_val,
    testBit_zext _ _ _ _ (Or.inl rfl), testBit_zext _ _ _ _ (Or.inl kind),
    testBit_and _ _ _ _ opcode, constant, evaluates.constant, evaluates.constant, testBit_toNat,
    testBit_toNat, BitVec.getLsbD_and, getLsbD_lowMask i (by omega)]
  simp [inside, low, width]

/-- `TRUNC(NOT(x)) --> NOT(TRUNC(x))` -/
theorem keeps_castOfNot (opcode : inner.opcode = .not) :
    KeepsCast graph target insn (castOfNot graph target insn reg inner) := by
  unfold castOfNot
  split_ifs with tests
  · obtain ⟨kind, once⟩ := tests
    have width := cast.width found
    refine (cast.keeps_pair_iff found once ?_ ?_ ?_).mpr ?_
    · exact (def?_eq_some found).1
    · exact fun _ _ member => before_of_single member rfl cast.before
    · exact fun _ _ member => before_of_single member rfl (cast.before_inner found).1
    intro value evaluates i inside
    have low : i < insn.itype := inside.trans (cast.truncWidths kind)
    rw [cast.value_source found evaluates, testBit_not _ _ _ _ rfl,
      testBit_zext _ _ _ _ (Or.inl rfl), testBit_zext _ _ _ _ (Or.inl kind),
      testBit_not _ _ _ _ opcode]
    simp [inside, low, width]
  · exact keeps_none graph target insn

/-- `*EXT(AND(x, C)) --> AND(ZEXT(x), C)`: this zero extension is right for a zero extension,
and for a sign extension when the sign bit of the `AND` is clear. -/
theorem keeps_extendAnd_iff (kind : insn.opcode = .zext ∨ insn.opcode = .sext)
    (opcode : inner.opcode = .and) {val : BitVec 64} (constant : inner.src2 = .val val) :
    KeepsCast graph target insn (extendAnd graph target insn reg inner) ↔
      (insn.opcode = .sext → graph.oneUse reg = true → ∀ value, Evaluates graph.defs value →
        ((value inner.src1).testBit (inner.size - 1) && val.getLsbD (inner.size - 1)) = false) := by
  have width := cast.width found
  have wide := cast.extendWidths kind
  have pos := cast.positive.2.1
  unfold extendAnd
  split_ifs with once
  · refine (cast.keeps_pair_iff found once ?_ ?_ ?_).trans ?_
    · exact (def?_eq_some found).1
    · exact fun _ _ member => before_of_two member rfl cast.before (constant ▸ before_val val)
    · exact fun _ _ member => before_of_single member rfl (cast.before_inner found).1
    have bits : ∀ {value}, Evaluates graph.defs value → ∀ {i}, i < insn.size →
        (((({ insn with opcode := .and, src2 := inner.src2 } : Instruction).eval
          (({ inner with opcode := .zext, itype := insn.itype, size := insn.size } :
            Instruction).eval
            (value inner.src1) (value inner.src2) (value inner.src3))
          (afterEdit value reg
            { inner with opcode := .zext, itype := insn.itype, size := insn.size } inner.src2)
          (afterEdit value reg
            { inner with opcode := .zext, itype := insn.itype, size := insn.size }
              insn.src3)).testBit i) =
        (decide (i < insn.itype) && ((value inner.src1).testBit i && val.getLsbD i))) := by
      intro value evaluates i inside
      rw [testBit_and _ _ _ _ rfl, testBit_zext _ _ _ _ (Or.inr rfl), constant, afterEdit_val,
        evaluates.constant, testBit_toNat]
      simp [inside, Bool.and_assoc]
    have old : ∀ {value}, Evaluates graph.defs value → ∀ {i}, i < insn.size →
        (value (.reg target)).testBit i =
          if insn.opcode = .sext ∧ insn.itype ≤ i then
            (value inner.src1).testBit (inner.size - 1) && val.getLsbD (inner.size - 1)
          else decide (i < insn.itype) && ((value inner.src1).testBit i && val.getLsbD i) := by
      intro value evaluates i inside
      rw [cast.value_source found evaluates, constant, evaluates.constant]
      rcases kind with kind | kind
      · rw [testBit_zext _ _ _ _ (Or.inr kind), testBit_and _ _ _ _ opcode, testBit_toNat,
          if_neg (by rw [kind]; exact fun both => Opcode.noConfusion both.1)]
        by_cases low : i < insn.itype <;> simp [inside, low, width]
      · rw [testBit_sext _ _ _ _ kind pos, testBit_and _ _ _ _ opcode, testBit_toNat, width]
        by_cases low : i < insn.itype
        · rw [if_neg fun both => absurd low (not_lt.mpr both.2), Nat.min_eq_left (by omega)]
          simp [inside, low]
        · rw [if_pos ⟨kind, not_lt.mp low⟩, Nat.min_eq_right (by omega)]
          simp [inside, pos]
    constructor
    · intro same sext _ value evaluates
      have bit := same value evaluates insn.itype wide
      rw [bits evaluates wide, old evaluates wide, if_pos ⟨sext, le_rfl⟩,
        decide_eq_false (lt_irrefl _), Bool.false_and] at bit
      exact bit.symm
    · intro clear value evaluates i inside
      rw [bits evaluates inside, old evaluates inside]
      split_ifs with high
      · rw [decide_eq_false (not_lt.mpr high.2), Bool.false_and, clear high.1 once value evaluates]
      · rfl
  · exact iff_of_true (keeps_none graph target insn) fun _ here => absurd here once

end

section

variable (cast : TypedCast graph number target insn)
  (found : graph.def? insn.src1 = some (reg, inner))
include cast found

/-- `*EXT(SETCC(x, y)) --> SETCC(x, y)` and the same for `TRUNC`: a sign extension of one bit
is right only when the comparison is never true. -/
theorem keeps_castOfCompare_iff (compare : inner.opcode.isCompare = true) :
    KeepsCast graph target insn (castOfCompare graph target insn inner) ↔
      (insn.opcode = .sext → insn.itype = 1 → ∀ value, Evaluates graph.defs value →
        (value insn.src1).testBit 0 = false) := by
  obtain ⟨place, defined⟩ := def?_eq_some found
  have arity : inner.opcode.arity = 2 := by
    cases kind : inner.opcode <;> rw [kind] at compare <;> first | rfl | cases compare
  have first := (cast.before_inner found).2
  have second : Before number target inner.src2 := fun nr here =>
    (before_operand cast.wf defined (BitOperation.src2_mem_operands arity) nr here).trans
      (cast.less found)
  obtain ⟨⟨posSize, -⟩, posType, -⟩ := cast.positive
  unfold castOfCompare
  rw [if_neg (fun both => by
    have wide := cast.extendWidths (Or.inr both.1)
    omega)]
  refine (cast.keeps_retarget_iff ?_).trans ?_
  · exact fun _ _ member => before_of_two member (by exact arity) first second
  have old : ∀ {value}, Evaluates graph.defs value → ∀ {i}, i < insn.size →
      (value (.reg target)).testBit i =
        if insn.opcode = .sext then (value insn.src1).testBit (min i (insn.itype - 1))
        else (value insn.src1).testBit i := by
    intro value evaluates i inside
    rw [evaluates.defined target insn cast.defined]
    by_cases sext : insn.opcode = .sext
    · rw [testBit_sext _ _ _ _ sext posType, if_pos sext, decide_eq_true inside, Bool.true_and]
    · have kind : insn.opcode = .trunc ∨ insn.opcode = .zext := by
        rcases cast.kind with kind | kind | kind
        · exact Or.inl kind
        · exact Or.inr kind
        · exact absurd kind sext
      rw [testBit_zext _ _ _ _ kind, if_neg sext, decide_eq_true inside, Bool.true_and]
      by_cases low : i < insn.itype
      · rw [decide_eq_true low, Bool.true_and]
      · have high : (value insn.src1).testBit i = false := by
          rw [place, evaluates.defined reg inner defined]
          exact (testBit_compare compare rfl rfl _ _ 0 _).2 i (by omega)
        rw [high, Bool.and_false]
  have new : ∀ {value}, Evaluates graph.defs value → ∀ i,
      (({ insn with
          opcode := inner.opcode, itype := inner.itype, src1 := inner.src1, src2 := inner.src2 } :
        Instruction).eval (value inner.src1) (value inner.src2) (value insn.src3)).testBit i =
        (value insn.src1).testBit i ∧ (0 < i → (value insn.src1).testBit i = false) := by
    intro value evaluates i
    obtain ⟨same, high⟩ := @testBit_compare inner
      { insn with
        opcode := inner.opcode, itype := inner.itype, src1 := inner.src1, src2 := inner.src2 }
      compare rfl rfl (value inner.src1) (value inner.src2) (value insn.src3) (value inner.src3)
    rw [place, evaluates.defined reg inner defined, same]
    exact ⟨rfl, high i⟩
  constructor
  · intro same sext oneBit value evaluates
    have wide := cast.extendWidths (Or.inr sext)
    have bit := same value evaluates 1 (by omega)
    rw [(new evaluates 1).1, old evaluates (by omega), if_pos sext, oneBit,
      (new evaluates 1).2 Nat.one_pos] at bit
    exact bit.symm
  · intro never value evaluates i inside
    rw [(new evaluates i).1, old evaluates inside]
    split_ifs with sext
    · by_cases low : i < insn.itype
      · rw [Nat.min_eq_left (by omega)]
      · rw [Nat.min_eq_right (by omega), (new evaluates i).2 (by omega)]
        by_cases oneBit : insn.itype = 1
        · rw [oneBit]
          exact (never sext oneBit value evaluates).symm
        · exact ((new evaluates (insn.itype - 1)).2 (by omega)).symm
    · rfl

/-- The widths of a definition that is a cast as well. -/
theorem innerWidths : inner.Widths :=
  cast.typed.widths reg inner (def?_eq_some found).2

/-- The cast of a cast reads the operand of the first one. -/
theorem keeps_retarget_single {opcode : Opcode} (one : opcode.arity = 1)
    (same : ∀ v1 v2 v3 w2 w3 i, i < insn.size →
      (({ insn with opcode := opcode, itype := inner.itype } : Instruction).eval v1 v2 v3).testBit
        i = (insn.eval (inner.eval v1 w2 w3) v2 v3).testBit i) :
    KeepsCast graph target insn
      (graph.retarget target
        { insn with opcode := opcode, itype := inner.itype, src1 := inner.src1 }) := by
  refine (cast.keeps_retarget_iff ?_).mpr fun value evaluates i inside => ?_
  · exact fun _ _ member => before_of_single member (by exact one) (cast.before_inner found).2
  · rw [cast.value_source found evaluates]
    exact same _ _ _ _ _ i inside

theorem keeps_castOfTrunc (opcode : inner.opcode = .trunc) :
    KeepsCast graph target insn (castOfTrunc graph target insn inner) := by
  have width := cast.width found
  have widths := cast.innerWidths found
  unfold Instruction.Widths at widths
  rw [opcode] at widths
  obtain ⟨pos, narrow, wide⟩ := widths
  unfold castOfTrunc
  rcases cast.kind with kind | kind | kind
  · -- TRUNC(TRUNC(x)) --> TRUNC(x)
    have less := cast.truncWidths kind
    rw [kind]
    refine cast.keeps_retarget_single found rfl fun v1 v2 v3 w2 w3 i inside => ?_
    have low : i < inner.itype := by omega
    rw [testBit_zext _ _ _ _ (Or.inl rfl), testBit_zext _ _ _ _ (Or.inl kind),
      testBit_zext _ _ _ _ (Or.inl opcode), width]
    simp [inside, low, inside.trans less]
  · -- ZEXT(TRUNC(x)) --> AND(x, M)
    rw [kind]
    dsimp only
    split_ifs with back
    · refine (cast.keeps_retarget_iff ?_).mpr fun value evaluates i inside => ?_
      · exact fun _ _ member => before_of_two member rfl (cast.before_inner found).2 (before_val _)
      · have low : i < inner.itype := back ▸ inside
        rw [cast.value_source found evaluates, testBit_and _ _ _ _ rfl, evaluates.constant,
          testBit_toNat, getLsbD_lowMask i (by omega), testBit_zext _ _ _ _ (Or.inr kind),
          testBit_zext _ _ _ _ (Or.inl opcode), width]
        by_cases small : i < insn.itype <;> simp [inside, low, small]
    · exact keeps_none graph target insn
  · -- SEXT(TRUNC(LSR(x, N))) --> ASR(x, N)
    rw [kind]
    dsimp only
    cases found2 : graph.def? inner.src1 with
    | none => exact keeps_none graph target insn
    | some definition =>
      obtain ⟨reg2, inner2⟩ := definition
      obtain ⟨place2, defined2⟩ := def?_eq_some found2
      dsimp only
      split_ifs with tests
      · obtain ⟨back, shift, count⟩ := tests
        have width2 : inner2.size = inner.itype := by
          have source := cast.typed.first reg inner (def?_eq_some found).2
            (by rw [opcode]; exact Opcode.noConfusion) reg2 inner2 place2 defined2
          unfold Instruction.sourceWidth at source
          rw [opcode] at source
          exact source
        have before2 : Before number target inner2.src1 := fun nr here =>
          (before_operand cast.wf defined2 (src1_mem_operands inner2) nr here).trans
            ((cast.before_inner found).2 reg2 place2)
        have extended := cast.extendWidths (Or.inr kind)
        refine (cast.keeps_retarget_iff ?_).mpr fun value evaluates i inside => ?_
        · exact fun _ _ member => before_of_two member rfl before2 (count ▸ before_val _)
        · have number : value inner2.src2 = insn.size - inner.size := by
            rw [count, evaluates.constant, BitVec.toNat_ofNat]
            exact Nat.mod_eq_of_lt (by omega)
          have place : min (insn.size - inner.size + i) (insn.size - 1) =
              insn.size - inner.size + min i (insn.itype - 1) := by omega
          rw [cast.value_source found evaluates, place2,
            evaluates.defined reg2 inner2 defined2,
            testBit_asr _ _ _ _ rfl (by exact cast.positive.1.1),
            testBit_sext _ _ _ _ kind (by omega), testBit_zext _ _ _ _ (Or.inl opcode),
            testBit_lsr _ _ _ _ shift]
          dsimp only
          rw [number, place, width2]
          have first : min i (insn.itype - 1) < inner.size := by omega
          have second : min i (insn.itype - 1) < inner.itype := by omega
          have third : insn.size - inner.size + min i (insn.itype - 1) < inner.itype := by omega
          rw [decide_eq_true first, decide_eq_true second, decide_eq_true third, Bool.true_and,
            Bool.true_and, Bool.true_and]
      · exact keeps_none graph target insn

/-- The truncation of an extension reads the operand of the extension. -/
theorem keeps_truncOfExtend (kind : insn.opcode = .trunc)
    (opcode : inner.opcode = .zext ∨ inner.opcode = .sext) :
    KeepsCast graph target insn (truncOfExtend graph target insn inner) := by
  have width := cast.width found
  have widths := cast.innerWidths found
  have less := cast.truncWidths kind
  have pos : 0 < inner.itype := by
    unfold Instruction.Widths at widths
    rcases opcode with opcode | opcode <;> rw [opcode] at widths <;> exact widths.1
  -- The bits that the truncation keeps.
  have bits : ∀ v1 v2 v3 w2 w3 i, i < insn.size → (insn.eval
    (inner.eval v1 w2 w3) v2 v3).testBit i =
      if inner.opcode = .sext then v1.testBit (min i (inner.itype - 1))
      else decide (i < inner.itype) && v1.testBit i := by
    intro v1 v2 v3 w2 w3 i inside
    have low : i < insn.itype := inside.trans less
    rw [testBit_zext _ _ _ _ (Or.inl kind), decide_eq_true inside, decide_eq_true low,
      Bool.true_and, Bool.true_and]
    rcases opcode with opcode | opcode
    · rw [testBit_zext _ _ _ _ (Or.inr opcode), width, decide_eq_true low, Bool.true_and, opcode]
      rfl
    · rw [testBit_sext _ _ _ _ opcode pos, width, decide_eq_true low, Bool.true_and, if_pos opcode]
  unfold truncOfExtend
  by_cases back : insn.size = inner.itype
  · rw [if_pos back]
    refine keepsCast_of_keepsTarget ((keepsAs_replace_iff cast.wf
      (cast.before_inner found).2).mpr fun value evaluates => ?_)
    rw [mod_two_pow_eq_iff]
    intro i inside
    rw [cast.value_source found evaluates, bits _ _ _ _ _ i inside]
    split_ifs
    · rw [Nat.min_eq_left (by omega)]
    · rw [decide_eq_true (by omega), Bool.true_and]
  · rw [if_neg back]
    by_cases wider : inner.itype < insn.size
    · rw [if_pos wider]
      refine cast.keeps_retarget_single found ?_ fun v1 v2 v3 w2 w3 i inside => ?_
      · rcases opcode with opcode | opcode <;> rw [opcode] <;> rfl
      · rw [bits _ _ _ _ _ i inside]
        rcases opcode with opcode | opcode
        · rw [testBit_zext _ _ _ _ (Or.inr (by exact opcode)), opcode]
          simp [inside]
        · rw [testBit_sext _ _ _ _ (by exact opcode) (by exact pos), if_pos opcode]
          simp [inside]
    · rw [if_neg wider]
      refine cast.keeps_retarget_single found (by rw [kind]; rfl) fun v1 v2 v3 w2 w3 i inside => ?_
      have low : i < inner.itype := by omega
      rw [bits _ _ _ _ _ i inside, testBit_zext _ _ _ _ (Or.inl (by exact kind))]
      split_ifs
      · rw [Nat.min_eq_left (by omega)]
        simp [inside, low]
      · simp [inside, low]

theorem keeps_castOfZext (opcode : inner.opcode = .zext) :
    KeepsCast graph target insn (castOfZext graph target insn inner) := by
  have width := cast.width found
  have widths := cast.innerWidths found
  unfold Instruction.Widths at widths
  rw [opcode] at widths
  obtain ⟨pos, wide, -⟩ := widths
  unfold castOfZext
  rcases cast.kind with kind | kind | kind
  · rw [kind]
    exact cast.keeps_truncOfExtend found kind (Or.inl opcode)
  · rw [kind]
    refine cast.keeps_retarget_single found rfl fun v1 v2 v3 w2 w3 i inside => ?_
    rw [testBit_zext _ _ _ _ (Or.inr rfl), testBit_zext _ _ _ _ (Or.inr kind),
      testBit_zext _ _ _ _ (Or.inr opcode), width]
    by_cases low : i < inner.itype
    · simp [inside, low, show i < insn.itype by omega]
    · simp [low]
  · have extended := cast.extendWidths (Or.inr kind)
    rw [kind]
    refine cast.keeps_retarget_single found rfl fun v1 v2 v3 w2 w3 i inside => ?_
    rw [testBit_zext _ _ _ _ (Or.inr rfl), testBit_sext _ _ _ _ kind (by omega),
      testBit_zext _ _ _ _ (Or.inr opcode), width]
    by_cases low : i < inner.itype
    · rw [Nat.min_eq_left (by omega)]
      simp [inside, low, show i < insn.itype by omega]
    · have high : ¬min i (insn.itype - 1) < inner.itype := by omega
      rw [decide_eq_false low, decide_eq_false high]
      simp

theorem keeps_castOfSext (opcode : inner.opcode = .sext) :
    KeepsCast graph target insn (castOfSext graph target insn inner) := by
  have width := cast.width found
  have widths := cast.innerWidths found
  unfold Instruction.Widths at widths
  rw [opcode] at widths
  obtain ⟨pos, wide, -⟩ := widths
  unfold castOfSext
  rcases cast.kind with kind | kind | kind
  · rw [kind]
    exact cast.keeps_truncOfExtend found kind (Or.inr opcode)
  · rw [kind]
    exact keeps_none graph target insn
  · have extended := cast.extendWidths (Or.inr kind)
    rw [kind]
    refine cast.keeps_retarget_single found rfl fun v1 v2 v3 w2 w3 i inside => ?_
    rw [testBit_sext _ _ _ _ rfl (by exact pos), testBit_sext _ _ _ _ kind (by omega),
      testBit_sext _ _ _ _ opcode pos, width]
    have place : min (min i (insn.itype - 1)) (inner.itype - 1) =
      min i (inner.itype - 1) := by omega
    have low : min i (insn.itype - 1) < insn.itype := by omega
    rw [place, decide_eq_true low, Bool.true_and]

end

end TypedCast

end SmatchFormal.Ir
