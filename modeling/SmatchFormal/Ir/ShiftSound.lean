import SmatchFormal.Ir.Shift
import SmatchFormal.Ir.MaskReader

/-!
# Shifts and masks keep their value

Bit by bit, every rule of `simplify_shift` and of `simplify_constant_mask` keeps the value of
the target.
-/

namespace SmatchFormal.Ir

structure ConstantShift (graph : Graph) (number : Nat → Nat) (target : Nat) (insn : Instruction)
    (count : BitVec 64) : Prop where
  wf : graph.WellFormed number
  typed : graph.Typed
  defined : graph.defs target = some insn
  kind : insn.opcode.IsShift
  constant : insn.src2 = .val count

namespace ConstantShift

variable {graph : Graph} {number : Nat → Nat} {target : Nat} {insn : Instruction}
  {count : BitVec 64} {reg : Nat} {inner : Instruction} {value : Pseudo → Nat} {i : Nat}

theorem widths (shift : ConstantShift graph number target insn count) :
    0 < insn.size ∧ insn.size ≤ 64 := by
  have widths := shift.typed.widths target insn shift.defined
  unfold Instruction.Widths at widths
  rcases shift.kind with kind | kind | kind <;> rw [kind] at widths <;> exact widths

section

variable (shift : ConstantShift graph number target insn count)
include shift

theorem sourceWidth :
    insn.opcode ≠ .sel ∧ insn.sourceWidth = insn.size := by
  unfold Instruction.sourceWidth
  rcases shift.kind with kind | kind | kind <;> rw [kind] <;> exact ⟨Opcode.noConfusion, rfl⟩

theorem before :
    Before number target insn.src1 :=
  before_operand shift.wf shift.defined (src1_mem_operands insn)

theorem width (found : graph.def? insn.src1 = some (reg, inner)) : inner.size = insn.size := by
  obtain ⟨place, defined⟩ := def?_eq_some found
  obtain ⟨notSel, same⟩ := shift.sourceWidth
  rw [← same]
  exact shift.typed.first target insn shift.defined notSel reg inner place defined

/-- The operands of the definition come before it and before the target. -/
theorem before_inner (found : graph.def? insn.src1 = some (reg, inner)) :
    Before number reg inner.src1 ∧ Before number target inner.src1 := by
  obtain ⟨place, defined⟩ := def?_eq_some found
  have first := before_operand shift.wf defined (src1_mem_operands inner)
  exact ⟨first, fun nr here => (first nr here).trans (shift.before reg place)⟩

theorem value_target (evaluates : Evaluates graph.defs value) :
    value (.reg target) = insn.eval (value insn.src1) count.toNat (value insn.src3) := by
  rw [evaluates.defined target insn shift.defined, shift.constant, evaluates.constant]

end

theorem value_source (found : graph.def? insn.src1 = some (reg, inner))
    (evaluates : Evaluates graph.defs value) :
    value insn.src1 = inner.eval (value inner.src1) (value inner.src2) (value inner.src3) := by
  obtain ⟨place, defined⟩ := def?_eq_some found
  rw [place, evaluates.defined reg inner defined]

section

variable (shift : ConstantShift graph number target insn count)
include shift

/-- A shift by another constant. -/
theorem keeps_retarget {new : Instruction} (two : new.opcode.arity = 2)
    (first : Before number target new.src1) {value' : BitVec 64} (second : new.src2 = .val value')
    (same : ∀ value, Evaluates graph.defs value → ∀ i < insn.size,
      (new.eval (value new.src1) value'.toNat (value new.src3)).testBit i =
      (value (.reg target)).testBit i) :
    KeepsCast graph target insn (graph.retarget target new) := by
  refine (keepsCast_retarget_iff shift.wf shift.defined fun slot pseudo member =>
    before_of_two member two first (second ▸ before_val value')).mpr fun value evaluates => ?_
  rw [second, evaluates.constant]
  exact same value evaluates

theorem keeps_zero
    (zero : ∀ value, Evaluates graph.defs value → ∀ i < insn.size,
      (value (.reg target)).testBit i = false) :
    KeepsCast graph target insn ⟨graph, .val 0⟩ := by
  refine keepsCast_replace shift.wf (before_val 0) fun value evaluates i inside => ?_
  rw [evaluates.constant, zero value evaluates i inside]
  exact Nat.zero_testBit i

/-- The label `new_value`: a shift of all bits leaves zero. -/
theorem keeps_newValue {opcode : Opcode} (kind : opcode = .lsr ∨ opcode = .shl ∨ opcode = .asr)
    {src1 : Pseudo} (first : Before number target src1) {size amount : Nat}
    (same : size = insn.size) (asr : opcode = .asr → amount < size)
    (bits : ∀ value, Evaluates graph.defs value → ∀ i < insn.size,
      (({ insn with opcode := opcode } : Instruction).eval (value src1) amount
        (value insn.src3)).testBit i = (value (.reg target)).testBit i) :
    KeepsCast graph target insn
      (newValue graph target { insn with opcode := opcode } size amount src1) := by
  have widths := shift.widths
  unfold newValue
  split_ifs with inside
  · refine shift.keeps_retarget ?_ first rfl fun value evaluates i small => ?_
    · rcases kind with rfl | rfl | rfl <;> rfl
    · have number : (BitVec.ofNat 64 amount).toNat = amount := by
        rw [BitVec.toNat_ofNat]
        exact Nat.mod_eq_of_lt (by omega)
      rw [number]
      exact bits value evaluates i small
  · refine shift.keeps_zero fun value evaluates i small => ?_
    rw [← bits value evaluates i small]
    rcases kind with rfl | rfl | rfl
    · rw [testBit_lsr _ _ _ _ rfl, decide_eq_false (by dsimp only; omega), Bool.false_and]
    · rw [testBit_shl _ _ _ _ rfl, decide_eq_false (show ¬amount ≤ i by omega), Bool.false_and,
        Bool.and_false]
    · exact absurd (asr rfl) inside

theorem keeps_shiftShift (found : graph.def? insn.src1 = some (reg, inner))
    (kind : insn.opcode = .lsr ∧ inner.opcode = .lsr ∨ insn.opcode = .shl ∧ inner.opcode = .shl) :
    KeepsCast graph target insn
      (shiftShift graph target insn reg inner insn.size count.toNat) := by
  have width := shift.width found
  unfold shiftShift
  split
  · rename_i nval constant
    split_ifs
    · exact keepsCast_none
    · have opcodes : insn.opcode = .lsr ∨ insn.opcode = .shl ∨ insn.opcode = .asr := by
        rcases kind with ⟨own, -⟩ | ⟨own, -⟩
        · exact Or.inl own
        · exact Or.inr (Or.inl own)
      refine @keeps_newValue _ _ _ _ _ shift insn.opcode opcodes _ (shift.before_inner found).2
        insn.size _ rfl (fun asr => ?_) fun value evaluates i inside => ?_
      · rcases kind with ⟨own, -⟩ | ⟨own, -⟩ <;> rw [own] at asr <;> cases asr
      · rw [shift.value_target evaluates, value_source found evaluates, constant,
          evaluates.constant]
        rcases kind with ⟨own, other⟩ | ⟨own, other⟩
        · rw [testBit_lsr _ _ _ _ own, testBit_lsr _ _ _ _ own, testBit_lsr _ _ _ _ other, width]
          by_cases all : count.toNat + nval.toNat + i < insn.size
          · have places : nval.toNat + (count.toNat + i) = count.toNat + nval.toNat + i := by omega
            rw [places]
            simp [all, show count.toNat + i < insn.size by omega]
          · simp [all, show ¬nval.toNat + (count.toNat + i) < insn.size by omega]
        · rw [testBit_shl _ _ _ _ own, testBit_shl _ _ _ _ own, testBit_shl _ _ _ _ other, width]
          by_cases all : count.toNat + nval.toNat ≤ i
          · have places : i - count.toNat - nval.toNat = i - (count.toNat + nval.toNat) := by omega
            rw [places]
            simp [all, inside, show count.toNat ≤ i by omega,
              show nval.toNat ≤ i - count.toNat by omega,
              show i - count.toNat < insn.size by omega]
          · by_cases first : count.toNat ≤ i
            · simp [all, first, show ¬nval.toNat ≤ i - count.toNat by omega]
            · simp [all, first]
  · exact keepsCast_none

end

section

variable (shift : ConstantShift graph number target insn count)
  (found : graph.def? insn.src1 = some (reg, inner)) (own : insn.opcode = .asr)
include shift found own

/-- A shift with the sign of a shift that keeps the sign. -/
theorem keeps_asrAsr (other : inner.opcode = .asr) {nval : BitVec 64}
    (constant : inner.src2 = .val nval) {amount : Nat} (less : amount < insn.size)
    (places : ∀ i < insn.size, min (amount + i) (insn.size - 1) =
      min (nval.toNat + min (count.toNat + i) (insn.size - 1)) (insn.size - 1)) :
    KeepsCast graph target insn (newValue graph target insn insn.size amount inner.src1) := by
  have width := shift.width found
  have widths := shift.widths
  refine @keeps_newValue _ _ _ _ _ shift insn.opcode (Or.inr (Or.inr own)) _
    (shift.before_inner found).2 insn.size _ rfl (fun _ => less) fun value evaluates i small => ?_
  rw [shift.value_target evaluates, value_source found evaluates, constant, evaluates.constant,
    testBit_asr _ _ _ _ own widths.1, testBit_asr _ _ _ _ own widths.1,
    testBit_asr _ _ _ _ other (by omega), width, decide_eq_true small, Bool.true_and,
    Bool.true_and, decide_eq_true (by omega), Bool.true_and, places i small]

/-- A shift with the sign of a shift that clears the sign. -/
theorem keeps_asrLsr (other : inner.opcode = .lsr) {nval : BitVec 64}
    (constant : inner.src2 = .val nval) (positive : nval ≠ 0) :
    KeepsCast graph target insn (newValue graph target { insn with opcode := .lsr } insn.size
      (count.toNat + nval.toNat) inner.src1) := by
  have width := shift.width found
  have widths := shift.widths
  have positive : 0 < nval.toNat :=
    Nat.pos_of_ne_zero fun zero => positive (BitVec.eq_of_toNat_eq zero)
  refine shift.keeps_newValue (Or.inl rfl) (shift.before_inner found).2 rfl Opcode.noConfusion ?_
  intro value evaluates i small
  rw [shift.value_target evaluates, value_source found evaluates, constant, evaluates.constant,
    testBit_lsr _ _ _ _ rfl, testBit_asr _ _ _ _ own widths.1, testBit_lsr _ _ _ _ other, width,
    decide_eq_true small, Bool.true_and]
  dsimp only
  by_cases low : count.toNat + i < insn.size
  · rw [Nat.min_eq_left (by omega)]
    have places : nval.toNat + (count.toNat + i) = count.toNat + nval.toNat + i := by omega
    rw [places]
  · rw [Nat.min_eq_right (by omega), decide_eq_false (by omega), decide_eq_false (by omega),
      Bool.false_and, Bool.false_and]

theorem keeps_asrShift (inside : count.toNat < insn.size)
    (kind : inner.opcode = .lsr ∨ inner.opcode = .asr) :
    KeepsCast graph target insn (asrShift graph target insn reg inner count.toNat) := by
  unfold asrShift
  split
  · rename_i nval constant
    dsimp only
    split_ifs with stop lsr large
    · exact keepsCast_none
    · exact shift.keeps_asrLsr found own lsr constant fun zero => stop (Or.inr (Or.inr zero))
    · refine shift.keeps_asrAsr found own (kind.resolve_left lsr) constant (by omega) ?_
      intro i small
      omega
    · refine shift.keeps_asrAsr found own (kind.resolve_left lsr) constant (by omega) ?_
      intro i small
      omega
  · exact keepsCast_none

theorem keeps_asrZext (zext : inner.opcode = .zext) :
    KeepsCast graph target insn (graph.retarget target { insn with opcode := .lsr }) := by
  have width := shift.width found
  have widths := shift.widths
  have narrow : inner.itype < inner.size := by
    have typed := shift.typed.widths reg inner (def?_eq_some found).2
    unfold Instruction.Widths at typed
    rw [zext] at typed
    exact typed.2.1
  refine shift.keeps_retarget rfl shift.before shift.constant fun value evaluates i small => ?_
  rw [shift.value_target evaluates, testBit_lsr _ _ _ _ rfl, testBit_asr _ _ _ _ own widths.1,
    decide_eq_true small, Bool.true_and]
  dsimp only
  by_cases low : count.toNat + i < insn.size
  · rw [Nat.min_eq_left (by omega), decide_eq_true low, Bool.true_and]
  · rw [Nat.min_eq_right (by omega), decide_eq_false low, Bool.false_and,
      value_source found evaluates, testBit_zext _ _ _ _ (Or.inr zext),
      decide_eq_false (show ¬insn.size - 1 < inner.itype by omega), Bool.false_and, Bool.and_false]

end

theorem keeps_simplifyAsr (shift : ConstantShift graph number target insn count)
    (own : insn.opcode = .asr) :
    KeepsCast graph target insn (simplifyAsr graph target insn insn.src1 count.toNat) := by
  unfold simplifyAsr
  split_ifs with large
  · exact keepsCast_none
  · cases found : graph.def? insn.src1 with
    | none => exact keepsCast_none
    | some definition =>
      obtain ⟨reg, inner⟩ := definition
      dsimp only
      split
      · rename_i lsr
        exact shift.keeps_asrShift found own (not_le.mp large) (Or.inl lsr)
      · rename_i asr
        exact shift.keeps_asrShift found own (not_le.mp large) (Or.inr asr)
      · rename_i zext
        exact shift.keeps_asrZext found own zext
      · exact keepsCast_none

theorem getLsbD_highMask {size low : Nat} (less : low < size) (le : size ≤ 64) (j : Nat) :
    (bitsMask (size - low) <<< low).getLsbD j = decide (low ≤ j ∧ j < size) := by
  rw [BitVec.getLsbD_shiftLeft, getLsbD_bitsMask _ (by omega) (by omega)]
  by_cases inside : low ≤ j ∧ j < size
  · simp [inside.1, inside.2, show j < 64 by omega, show j - low < size - low by omega]
  · rw [decide_eq_false inside]
    by_cases above : low ≤ j
    · simp [show ¬j - low < size - low by omega]
    · simp [not_le.mp above]

/-- The bits of an operand that a shift to the left keeps. -/
theorem getLsbD_lowerMask {size low : Nat} (pos : 0 < size) (le : size ≤ 64) (j : Nat) :
    (bitsMask size >>> low).getLsbD j = decide (low + j < size) := by
  rw [BitVec.getLsbD_ushiftRight, getLsbD_bitsMask _ pos le]

section

variable (shift : ConstantShift graph number target insn count)
include shift

theorem testBit_sourceAnd (found : graph.def? insn.src1 = some (reg, inner))
    (opcode : inner.opcode = .and) {omask : BitVec 64} (constant : inner.src2 = .val omask)
    (evaluates : Evaluates graph.defs value) {j : Nat} (inside : j < insn.size) :
    (value insn.src1).testBit j = ((value inner.src1).testBit j && omask.getLsbD j) := by
  rw [value_source found evaluates, constant, evaluates.constant, testBit_and _ _ _ _ opcode,
    shift.width found, decide_eq_true inside, Bool.true_and, testBit_toNat]

theorem testBit_lsr_target (own : insn.opcode = .lsr) (evaluates : Evaluates graph.defs value) :
    (value (.reg target)).testBit i =
      (decide (count.toNat + i < insn.size) && (value insn.src1).testBit (count.toNat + i)) := by
  rw [shift.value_target evaluates, testBit_lsr _ _ _ _ own]

theorem testBit_shl_target (own : insn.opcode = .shl) (evaluates : Evaluates graph.defs value) :
    (value (.reg target)).testBit i = (decide (i < insn.size) &&
      (decide (count.toNat ≤ i) && (value insn.src1).testBit (i - count.toNat))) := by
  rw [shift.value_target evaluates, testBit_shl _ _ _ _ own]

end

section

variable (shift : ConstantShift graph number target insn count)
  (found : graph.def? insn.src1 = some (reg, inner))
include shift found

theorem keeps_lsrAnd (own : insn.opcode = .lsr) (opcode : inner.opcode = .and)
    (inside : count.toNat < insn.size) :
    KeepsCast graph target insn (lsrAnd graph target insn reg inner count.toNat) := by
  obtain ⟨pos, le⟩ := shift.widths
  obtain ⟨place, defined⟩ := def?_eq_some found
  have beforeA := shift.before_inner found
  unfold lsrAnd
  split
  · rename_i omask constant
    have highBit : ∀ i, count.toNat + i < insn.size →
        (bitsMask (insn.size - count.toNat) <<< count.toNat).getLsbD (count.toNat + i) = true := by
      intro i low
      rw [getLsbD_highMask inside le, decide_eq_true ⟨Nat.le_add_right _ _, low⟩]
    dsimp only
    split_ifs with zero full once
    · refine shift.keeps_zero fun value evaluates i small => ?_
      rw [shift.testBit_lsr_target own evaluates]
      by_cases low : count.toNat + i < insn.size
      · rw [shift.testBit_sourceAnd found opcode constant evaluates low,
          MaskContext.bit_of_and_zero zero (highBit i low), Bool.and_false, Bool.and_false]
      · rw [decide_eq_false low, Bool.false_and]
    · refine shift.keeps_retarget (by rw [own]; rfl) beforeA.2 shift.constant
        fun value evaluates i small => ?_
      rw [shift.testBit_lsr_target own evaluates, testBit_lsr _ _ _ _ (by exact own)]
      dsimp only
      by_cases low : count.toNat + i < insn.size
      · rw [shift.testBit_sourceAnd found opcode constant evaluates low,
          MaskContext.bit_of_and_eq full (highBit i low), Bool.and_true]
      · rw [decide_eq_false low, Bool.false_and, Bool.false_and]
    · refine (keepsCast_pair_iff shift.wf shift.defined found once ?_ ?_ ?_).mpr ?_
      · exact place
      · exact fun _ _ member => before_of_two member rfl shift.before (before_val _)
      · exact fun _ _ member => before_of_two member rfl beforeA.1
          (shift.constant ▸ before_val count)
      · intro value evaluates i small
        have updated : afterEdit value reg { inner with opcode := .lsr, src2 := insn.src2 }
            (.val (omask >>> count.toNat)) = (omask >>> count.toNat).toNat :=
          (Function.update_of_ne Pseudo.noConfusion ..).trans (evaluates.constant _)
        rw [shift.testBit_lsr_target own evaluates, testBit_and _ _ _ _ rfl,
          testBit_lsr _ _ _ _ rfl]
        dsimp only
        rw [updated, shift.constant, evaluates.constant, testBit_toNat,
          BitVec.getLsbD_ushiftRight, shift.width found, decide_eq_true small, Bool.true_and]
        by_cases low : count.toNat + i < insn.size
        · rw [shift.testBit_sourceAnd found opcode constant evaluates low, decide_eq_true low,
            Bool.true_and, Bool.true_and]
        · rw [decide_eq_false low, Bool.false_and, Bool.false_and, Bool.false_and]
    · exact keepsCast_none
  · exact keepsCast_none

theorem keeps_shlAnd (own : insn.opcode = .shl) (opcode : inner.opcode = .and) :
    KeepsCast graph target insn (shlAnd graph target insn inner count.toNat) := by
  obtain ⟨pos, le⟩ := shift.widths
  unfold shlAnd
  split
  · rename_i omask constant
    have keptBit : ∀ i, i < insn.size → count.toNat ≤ i →
        (bitsMask insn.size >>> count.toNat).getLsbD (i - count.toNat) = true := by
      intro i small above
      rw [getLsbD_lowerMask pos le, decide_eq_true (by omega)]
    dsimp only
    split_ifs with zero full
    · refine shift.keeps_zero fun value evaluates i small => ?_
      rw [shift.testBit_shl_target own evaluates]
      by_cases above : count.toNat ≤ i
      · rw [shift.testBit_sourceAnd found opcode constant evaluates (by omega),
          MaskContext.bit_of_and_zero zero (keptBit i small above), Bool.and_false, Bool.and_false,
          Bool.and_false]
      · rw [decide_eq_false above, Bool.false_and, Bool.and_false]
    · refine shift.keeps_retarget (by rw [own]; rfl) (shift.before_inner found).2 shift.constant
        fun value evaluates i small => ?_
      rw [shift.testBit_shl_target own evaluates, testBit_shl _ _ _ _ (by exact own)]
      dsimp only
      by_cases above : count.toNat ≤ i
      · rw [shift.testBit_sourceAnd found opcode constant evaluates (by omega),
          MaskContext.bit_of_and_eq full (keptBit i small above), Bool.and_true]
      · rw [decide_eq_false above, Bool.false_and, Bool.false_and]
    · exact keepsCast_none
  · exact keepsCast_none

/-- The label `replace_mask`: two shifts by one count remove the bits outside of the mask. -/
theorem keeps_replaceMask {mask : BitVec 64}
    (bits : ∀ value, Evaluates graph.defs value → ∀ i < insn.size,
      ((value inner.src1).testBit i && mask.getLsbD i) = (value (.reg target)).testBit i) :
    KeepsCast graph target insn (replaceMask graph target insn mask inner.src1) := by
  unfold replaceMask
  refine shift.keeps_retarget rfl (shift.before_inner found).2 rfl fun value evaluates i small => ?_
  rw [testBit_and _ _ _ _ rfl, testBit_toNat, decide_eq_true small, Bool.true_and]
  exact bits value evaluates i small

theorem keeps_lsrShl (own : insn.opcode = .lsr) (opcode : inner.opcode = .shl)
    (same : inner.src2 = insn.src2) (inside : count.toNat < insn.size) :
    KeepsCast graph target insn
      (replaceMask graph target insn (bitsMask (insn.size - count.toNat)) inner.src1) := by
  obtain ⟨pos, le⟩ := shift.widths
  refine shift.keeps_replaceMask found fun value evaluates i small => ?_
  rw [shift.testBit_lsr_target own evaluates, value_source found evaluates, same, shift.constant,
    evaluates.constant, testBit_shl _ _ _ _ opcode, shift.width found,
    getLsbD_bitsMask _ (by omega) (by omega), Nat.add_sub_cancel_left]
  by_cases low : count.toNat + i < insn.size
  · simp [low, show i < insn.size - count.toNat by omega]
  · simp [low, show ¬i < insn.size - count.toNat by omega]

theorem keeps_shlLsr (own : insn.opcode = .shl) (opcode : inner.opcode = .lsr)
    (same : inner.src2 = insn.src2) (inside : count.toNat < insn.size) :
    KeepsCast graph target insn (replaceMask graph target insn
      (bitsMask (insn.size - count.toNat) <<< count.toNat) inner.src1) := by
  obtain ⟨pos, le⟩ := shift.widths
  refine shift.keeps_replaceMask found fun value evaluates i small => ?_
  rw [shift.testBit_shl_target own evaluates, value_source found evaluates, same, shift.constant,
    evaluates.constant, testBit_lsr _ _ _ _ opcode, shift.width found,
    getLsbD_highMask inside le]
  by_cases above : count.toNat ≤ i
  · rw [Nat.add_sub_cancel' above]
    simp [above, small]
  · simp [above]

end

/-- A logical shift reads the bits that it keeps. -/
theorem shiftReader (shift : ConstantShift graph number target insn count)
    (logical : insn.opcode = .lsr ∨ insn.opcode = .shl) :
    MaskReader graph number target insn
      (shiftedMask insn (bitsMask insn.size) count.toNat) where
  wf := shift.wf
  typed := shift.typed
  defined := shift.defined
  notSel := shift.sourceWidth.1
  within := by
    obtain ⟨pos, le⟩ := shift.widths
    intro i bit
    unfold shiftedMask at bit
    rw [BitVec.getLsbD_and, Bool.and_eq_true, getLsbD_bitsMask i pos le, decide_eq_true_eq] at bit
    rw [shift.sourceWidth.2]
    exact bit.1
  reads := by
    obtain ⟨pos, le⟩ := shift.widths
    intro value value' constants constants' x y agree i inside
    rw [shift.constant, constants, constants']
    exact agreeOn_bitsMask pos le (agreeOn_shift logical pos le agree _ _) inside

theorem keeps_shiftOr (shift : ConstantShift graph number target insn count)
    (found : graph.def? insn.src1 = some (reg, inner))
    (logical : insn.opcode = .lsr ∨ insn.opcode = .shl) (opcode : inner.opcode = .or) :
    KeepsCast graph target insn (shiftOr graph target insn reg inner insn.size count.toNat) :=
  (shift.shiftReader logical).keeps_maskOr (Covers.refl _) found opcode

theorem getLsbD_sshiftRight_sub {v : BitVec 64} {n j : Nat} (above : n ≤ j) (inside : j < 64) :
    (v.sshiftRight n).getLsbD (j - n) = v.getLsbD j := by
  rw [BitVec.getLsbD_sshiftRight, Nat.add_sub_cancel' above, if_pos inside,
    decide_eq_false (by omega), Bool.not_false, Bool.true_and]

theorem getLsbD_of_valueSize_le {v : BitVec 64} {j : Nat} (above : valueSize v ≤ j) :
    v.getLsbD j = false := by
  by_cases inside : j < 64
  · unfold valueSize at above
    dsimp only at above
    split_ifs at above with byte short int
    · rw [← getLsbD_sshiftRight_sub above inside, byte]
      exact BitVec.getLsbD_zero
    · rw [← getLsbD_sshiftRight_sub (show 8 ≤ j by omega) inside,
        ← getLsbD_sshiftRight_sub (show 8 ≤ j - 8 by omega) (by omega), short]
      exact BitVec.getLsbD_zero
    · rw [← getLsbD_sshiftRight_sub (show 8 ≤ j by omega) inside,
        ← getLsbD_sshiftRight_sub (show 8 ≤ j - 8 by omega) (by omega),
        ← getLsbD_sshiftRight_sub (show 16 ≤ j - 8 - 8 by omega) (by omega), int]
      exact BitVec.getLsbD_zero
    · omega
  · exact BitVec.getLsbD_of_ge v j (not_lt.mp inside)

theorem testBit_of_operandSize_le (evaluates : Evaluates graph.defs value) {j : Nat}
    (above : operandSize graph insn insn.src1 ≤ j) (small : j < insn.size) :
    (value insn.src1).testBit j = false := by
  cases source : insn.src1 with
  | val v =>
    rw [evaluates.constant, testBit_toNat]
    unfold operandSize at above
    rw [source] at above
    dsimp only at above
    exact getLsbD_of_valueSize_le (by omega)
  | arg nr =>
    unfold operandSize at above
    rw [source] at above
    dsimp only at above
    exact absurd above (not_le.mpr small)
  | reg nr =>
    unfold operandSize at above
    rw [source] at above
    dsimp only at above
    cases found : graph.def? (.reg nr) with
    | none =>
      rw [found] at above
      exact absurd above (not_le.mpr small)
    | some definition =>
      obtain ⟨reg, inner⟩ := definition
      rw [found] at above
      dsimp only at above
      split_ifs at above with zext
      · rw [← source, value_source (source ▸ found) evaluates,
          testBit_zext _ _ _ _ (Or.inr zext.1), decide_eq_false (not_lt.mpr above),
          Bool.false_and, Bool.and_false]
      · exact absurd above (not_le.mpr small)

theorem operandSize_eq (found : graph.def? insn.src1 = some (reg, inner))
    (other : inner.opcode ≠ .zext) : operandSize graph insn insn.src1 = insn.size := by
  obtain ⟨place, -⟩ := def?_eq_some found
  unfold operandSize
  rw [place] at found ⊢
  dsimp only
  rw [found]
  exact if_neg fun zext => other zext.1

theorem keeps_simplifyLsr (shift : ConstantShift graph number target insn count)
    (own : insn.opcode = .lsr) (inside : count.toNat < insn.size) :
    KeepsCast graph target insn (simplifyLsr graph target insn insn.src1 count.toNat) := by
  unfold simplifyLsr
  dsimp only
  split_ifs with large
  · refine shift.keeps_zero fun value evaluates i small => ?_
    rw [shift.testBit_lsr_target own evaluates]
    by_cases low : count.toNat + i < insn.size
    · rw [testBit_of_operandSize_le evaluates (large.trans (Nat.le_add_right _ _)) low,
        Bool.and_false]
    · rw [decide_eq_false low, Bool.false_and]
  · cases found : graph.def? insn.src1 with
    | none => exact keepsCast_none
    | some definition =>
      obtain ⟨reg, inner⟩ := definition
      have size : inner.opcode ≠ .zext → operandSize graph insn insn.src1 = insn.size :=
        operandSize_eq found
      dsimp only
      split
      · rename_i opcode
        exact shift.keeps_lsrAnd found own opcode inside
      · rename_i opcode
        rw [size (by rw [opcode]; exact Opcode.noConfusion)]
        exact shift.keeps_shiftShift found (Or.inl ⟨own, opcode⟩)
      · rename_i opcode
        rw [size (by rw [opcode]; exact Opcode.noConfusion)]
        exact shift.keeps_shiftOr found (Or.inl own) opcode
      · rename_i opcode
        split_ifs with different
        · exact keepsCast_none
        · exact shift.keeps_lsrShl found own opcode (not_not.mp different) inside
      · exact keepsCast_none

theorem keeps_simplifyShl (shift : ConstantShift graph number target insn count)
    (own : insn.opcode = .shl) (inside : count.toNat < insn.size) :
    KeepsCast graph target insn (simplifyShl graph target insn insn.src1 count.toNat) := by
  unfold simplifyShl
  rw [if_neg (not_le.mpr inside)]
  cases found : graph.def? insn.src1 with
  | none => exact keepsCast_none
  | some definition =>
    obtain ⟨reg, inner⟩ := definition
    dsimp only
    split
    · rename_i opcode
      exact shift.keeps_shlAnd found own opcode
    · rename_i opcode
      split_ifs with different
      · exact keepsCast_none
      · exact shift.keeps_shlLsr found own opcode (not_not.mp different) inside
    · rename_i opcode
      exact shift.keeps_shiftOr found (Or.inr own) opcode
    · rename_i opcode
      exact shift.keeps_shiftShift found (Or.inr ⟨own, opcode⟩)
    · exact keepsCast_none

theorem le_toNat_of_slt_zero {sval : BitVec 64} (negative : sval.slt 0 = true) :
    2 ^ 63 ≤ sval.toNat := by
  rw [BitVec.slt_iff_toInt_lt] at negative
  have half := BitVec.toInt_neg_iff.mp negative
  omega

/-- Counts from the size on all shift out every bit, apart from the sign. -/
theorem testBit_large (shift : ConstantShift graph number target insn count) {c c' : Nat}
    (large : insn.size ≤ c) (large' : insn.size ≤ c') (x v3 : Nat) (small : i < insn.size) :
    (insn.eval x c v3).testBit i = (insn.eval x c' v3).testBit i := by
  obtain ⟨pos, le⟩ := shift.widths
  rcases shift.kind with kind | kind | kind
  · rw [testBit_shl _ _ _ _ kind, testBit_shl _ _ _ _ kind, decide_eq_false (show ¬c ≤ i by omega),
      decide_eq_false (show ¬c' ≤ i by omega), Bool.false_and, Bool.false_and]
  · rw [testBit_lsr _ _ _ _ kind, testBit_lsr _ _ _ _ kind, decide_eq_false (by omega),
      decide_eq_false (by omega), Bool.false_and, Bool.false_and]
  · rw [testBit_asr _ _ _ _ kind pos, testBit_asr _ _ _ _ kind pos,
      Nat.min_eq_right (show insn.size - 1 ≤ c + i by omega),
      Nat.min_eq_right (show insn.size - 1 ≤ c' + i by omega)]

/-- A count that is not a count stays one that is not. -/
theorem keeps_outside (shift : ConstantShift graph number target insn count) {tainted : Bool}
    {src2 : Pseudo} (outside : checkShiftCount tainted insn count = .outside src2) :
    KeepsCast graph target insn (graph.retarget target { insn with src2 := src2 }) := by
  obtain ⟨pos, le⟩ := shift.widths
  unfold checkShiftCount at outside
  dsimp only at outside
  split_ifs at outside with flag inside negative
  · cases outside
    have huge := le_toNat_of_slt_zero negative
    refine shift.keeps_retarget ?_ shift.before rfl fun value evaluates i small => ?_
    · rcases shift.kind with kind | kind | kind <;> rw [kind] <;> rfl
    · rw [shift.value_target evaluates]
      exact shift.testBit_large (by omega) (not_lt.mp inside) _ _ small
  · cases outside
    refine (keepsCast_retarget_iff shift.wf shift.defined
      (before_withSrc1 shift.wf shift.defined shift.before)).mpr fun value evaluates i small => ?_
    rw [evaluates.defined target insn shift.defined]

theorem checkShiftCount_inside {tainted : Bool} {amount : Nat}
    (inside : checkShiftCount tainted insn count = .inside amount) :
    amount = count.toNat ∧ count.toNat < insn.size := by
  unfold checkShiftCount at inside
  dsimp only at inside
  split_ifs at inside with flag small
  cases inside
  exact ⟨rfl, small⟩

theorem keeps_simplifyShift (shift : ConstantShift graph number target insn count)
    (tainted : Bool) :
    KeepsCast graph target insn (simplifyShift graph target insn tainted insn.src1 count).1 := by
  obtain ⟨pos, le⟩ := shift.widths
  unfold simplifyShift
  by_cases zero : count = 0
  · rw [if_pos zero]
    refine keepsCast_replace shift.wf shift.before fun value evaluates i small => ?_
    have none : count.toNat = 0 := by
      rw [zero]
      rfl
    rw [shift.value_target evaluates, none]
    rcases shift.kind with kind | kind | kind
    · rw [testBit_shl _ _ _ _ kind, decide_eq_true small, decide_eq_true (Nat.zero_le i),
        Bool.true_and, Bool.true_and, Nat.sub_zero]
    · rw [testBit_lsr _ _ _ _ kind, Nat.zero_add, decide_eq_true small, Bool.true_and]
    · rw [testBit_asr _ _ _ _ kind pos, Nat.zero_add, Nat.min_eq_left (by omega),
        decide_eq_true small, Bool.true_and]
  · rw [if_neg zero]
    cases checked : checkShiftCount tainted insn count with
    | tainted => exact keepsCast_none
    | outside src2 => exact shift.keeps_outside checked
    | inside amount =>
      obtain ⟨rfl, inside⟩ := checkShiftCount_inside checked
      dsimp only
      split
      · rename_i own
        exact shift.keeps_simplifyAsr own
      · rename_i own
        exact shift.keeps_simplifyLsr own inside
      · rename_i own
        exact shift.keeps_simplifyShl own inside
      · exact keepsCast_none

end ConstantShift

structure ConstantMask (graph : Graph) (number : Nat → Nat) (target : Nat) (insn : Instruction)
    (mask : BitVec 64) : Prop where
  wf : graph.WellFormed number
  typed : graph.Typed
  defined : graph.defs target = some insn
  kind : insn.opcode = .and
  constant : insn.src2 = .val mask

namespace ConstantMask

variable {graph : Graph} {number : Nat → Nat} {target : Nat} {insn : Instruction}
  {mask : BitVec 64} {reg : Nat} {inner : Instruction} {value : Pseudo → Nat} {i : Nat}

theorem widths (masks : ConstantMask graph number target insn mask) :
    0 < insn.size ∧ insn.size ≤ 64 := by
  have widths := masks.typed.widths target insn masks.defined
  unfold Instruction.Widths at widths
  rw [masks.kind] at widths
  exact widths

section

variable (masks : ConstantMask graph number target insn mask)
include masks

theorem testBit_target (evaluates : Evaluates graph.defs value) (small : i < insn.size) :
    (value (.reg target)).testBit i = ((value insn.src1).testBit i && mask.getLsbD i) := by
  rw [evaluates.defined target insn masks.defined, masks.constant, evaluates.constant,
    testBit_and _ _ _ _ masks.kind, decide_eq_true small, Bool.true_and, testBit_toNat]

/-- An `AND` reads the bits of its mask; bits above its width do not matter. -/
theorem maskReader :
    MaskReader graph number target insn (mask &&& bitsMask insn.size) where
  wf := masks.wf
  typed := masks.typed
  defined := masks.defined
  notSel := by
    rw [masks.kind]
    exact Opcode.noConfusion
  within := by
    obtain ⟨pos, le⟩ := masks.widths
    intro i bit
    rw [BitVec.getLsbD_and, Bool.and_eq_true, getLsbD_bitsMask i pos le, decide_eq_true_eq] at bit
    unfold Instruction.sourceWidth
    rw [masks.kind]
    exact bit.2
  reads := by
    obtain ⟨pos, le⟩ := masks.widths
    intro value value' constants constants' x y agree i inside
    rw [masks.constant, constants, constants', testBit_and _ _ _ _ masks.kind,
      testBit_and _ _ _ _ masks.kind, testBit_toNat]
    cases bit : mask.getLsbD i with
    | false => simp only [Bool.and_false]
    | true =>
      rw [agree i]
      rw [BitVec.getLsbD_and, bit, getLsbD_bitsMask i pos le, decide_eq_true inside,
        Bool.and_self]

theorem covers :
    Covers mask (mask &&& bitsMask insn.size) := by
  obtain ⟨pos, le⟩ := masks.widths
  intro i bit
  rw [BitVec.getLsbD_and, Bool.and_eq_true] at bit
  exact bit.1

/-- The label `oldsize`: the bits of the mask that the operand does not have can go. -/
theorem keeps_smallerMask {osize : Nat} (less : osize < 64)
    (bits : ∀ value, Evaluates graph.defs value → ∀ i, osize ≤ i →
      (value insn.src1).testBit i = false) :
    KeepsCast graph target insn (smallerMask graph target insn mask osize) := by
  have before : Before number target insn.src1 :=
    before_operand masks.wf masks.defined (src1_mem_operands insn)
  have low := fun i => getLsbD_lowMask i less
  unfold smallerMask
  dsimp only
  split_ifs with redundant smaller
  · refine keepsCast_replace masks.wf before fun value evaluates i small => ?_
    rw [masks.testBit_target evaluates small]
    by_cases inside : i < osize
    · rw [MaskContext.bit_of_and_eq redundant (by rw [low, decide_eq_true inside]), Bool.and_true]
    · rw [bits value evaluates i (not_lt.mp inside), Bool.false_and]
  · refine (keepsCast_retarget_iff masks.wf masks.defined ?_).mpr fun value evaluates i small => ?_
    · exact fun _ _ member => before_of_two member (by rw [masks.kind]; rfl) before (before_val _)
    rw [masks.testBit_target evaluates small, testBit_and _ _ _ _ (by exact masks.kind)]
    dsimp only
    rw [evaluates.constant, testBit_toNat, BitVec.getLsbD_and, low, decide_eq_true small,
      Bool.true_and]
    by_cases inside : i < osize
    · rw [decide_eq_true inside, Bool.and_true]
    · rw [bits value evaluates i (not_lt.mp inside), Bool.false_and, Bool.false_and]
  · exact keepsCast_none

theorem keeps_simplifyConstantMask (tainted : Nat → Bool) :
    KeepsCast graph target insn (simplifyConstantMask graph target insn tainted mask) := by
  unfold simplifyConstantMask
  cases found : graph.def? insn.src1 with
  | none => exact keepsCast_none
  | some definition =>
    obtain ⟨reg, inner⟩ := definition
    obtain ⟨place, defined⟩ := def?_eq_some found
    have source : ∀ {value}, Evaluates graph.defs value → value insn.src1 =
        inner.eval (value inner.src1) (value inner.src2) (value inner.src3) := by
      intro value evaluates
      rw [place, evaluates.defined reg inner defined]
    dsimp only
    split
    · rename_i opcode
      exact masks.maskReader.keeps_maskOr masks.covers found opcode
    · rename_i opcode
      exact masks.maskReader.keeps_maskShift masks.covers tainted found (Or.inl opcode)
    · rename_i opcode
      exact masks.maskReader.keeps_maskShift masks.covers tainted found (Or.inr opcode)
    · rename_i opcode
      have widths := masks.typed.widths reg inner defined
      unfold Instruction.Widths at widths
      rw [opcode] at widths
      refine masks.keeps_smallerMask (by omega) fun value evaluates i above => ?_
      rw [source evaluates, testBit_zext _ _ _ _ (Or.inr opcode),
        decide_eq_false (not_lt.mpr above), Bool.false_and, Bool.and_false]
    · split_ifs with compare
      · refine masks.keeps_smallerMask (by decide) fun value evaluates i above => ?_
        rw [source evaluates]
        exact (testBit_compare compare rfl rfl _ _ (value inner.src3) _).2 i above
      · exact keepsCast_none

end

end ConstantMask

/-- `simplify_shift` and `simplify_constant_mask` keep the value of the target and of every
register that is used for something else. -/
theorem simplifyShift_simplifyConstantMask_keep {graph : Graph} {number : Nat → Nat}
    {target : Nat} {insn : Instruction} {value : BitVec 64} :
    (ConstantShift graph number target insn value → ∀ tainted,
      KeepsRest graph target insn (simplifyShift graph target insn tainted insn.src1 value).1) ∧
    (ConstantMask graph number target insn value → ∀ tainted,
      KeepsRest graph target insn (simplifyConstantMask graph target insn tainted value)) := by
  constructor
  · intro shift tainted
    exact keepsRest_of_keepsCast shift.wf (shift.keeps_simplifyShift tainted)
  · intro masks tainted
    exact keepsRest_of_keepsCast masks.wf (masks.keeps_simplifyConstantMask tainted)

def byteShift : List Instruction :=
  [⟨.and, 32, 32, .arg 0, .val 0xff00, .val 0⟩, ⟨.lsr, 32, 32, .reg 0, .val 8, .val 0⟩]

def nibbleMask : List Instruction :=
  [⟨.or, 32, 32, .arg 0, .val 0x10, .val 0⟩, ⟨.and, 32, 32, .reg 0, .val 0xf, .val 0⟩]

theorem constantShift_byteShift :
    ConstantShift (straightLine byteShift) id 1 ⟨.lsr, 32, 32, .reg 0, .val 8, .val 0⟩ 8 where
  wf := wellFormed_straightLine (by decide)
  typed := typed_pair rfl rfl ⟨⟨by decide, by decide⟩, by decide, by decide⟩
    ⟨fun _ => Pseudo.noConfusion, fun _ => Pseudo.noConfusion⟩ fun _ _ => Pseudo.noConfusion
  defined := rfl
  kind := Or.inr (Or.inl rfl)
  constant := rfl

theorem constantMask_nibbleMask :
    ConstantMask (straightLine nibbleMask) id 1 ⟨.and, 32, 32, .reg 0, .val 0xf, .val 0⟩ 0xf where
  wf := wellFormed_straightLine (by decide)
  typed := typed_pair rfl rfl ⟨⟨by decide, by decide⟩, by decide, by decide⟩
    ⟨fun _ => Pseudo.noConfusion, fun _ => Pseudo.noConfusion⟩ fun _ _ => Pseudo.noConfusion
  defined := rfl
  kind := rfl
  constant := rfl

theorem keep_byteShift_nibbleMask :
    KeepsRest (straightLine byteShift) 1 ⟨.lsr, 32, 32, .reg 0, .val 8, .val 0⟩
      (simplifyShift (straightLine byteShift) 1 ⟨.lsr, 32, 32, .reg 0, .val 8, .val 0⟩ false
        (.reg 0) 8).1 ∧
    KeepsRest (straightLine nibbleMask) 1 ⟨.and, 32, 32, .reg 0, .val 0xf, .val 0⟩
      (simplifyConstantMask (straightLine nibbleMask) 1
        ⟨.and, 32, 32, .reg 0, .val 0xf, .val 0⟩ (fun _ => false) 0xf) :=
  ⟨simplifyShift_simplifyConstantMask_keep.1 constantShift_byteShift false,
    simplifyShift_simplifyConstantMask_keep.2 constantMask_nibbleMask fun _ => false⟩

end SmatchFormal.Ir
