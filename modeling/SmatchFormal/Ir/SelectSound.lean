import SmatchFormal.Ir.SelectReplace
import Mathlib.Data.Nat.Bitwise

/-!
# When a select is simplified soundly

The rules that shift the condition or move an operation out of an arm, and the
theorem about all rules.
-/

namespace SmatchFormal.Ir

section Rules

variable {graph : Graph} {number : Nat → Nat} {target : Nat} {insn : Instruction}

/-! ## Powers of two -/

theorem toNat_of_isPowerOf2 {n : BitVec 64} (power : isPowerOf2 n = true) :
    n.toNat = 2 ^ log2Exact n := by
  unfold isPowerOf2 at power
  rw [Bool.and_eq_true, bne_iff_ne, beq_iff_eq] at power
  obtain ⟨nonzero, disjoint⟩ := power
  have positive : n.toNat ≠ 0 := fun zero => nonzero (BitVec.eq_of_toNat_eq zero)
  have less : n.toNat - 1 = (n - 1).toNat := by
    have bound := n.isLt
    rw [BitVec.toNat_sub]
    change _ = (2 ^ 64 - 1 + n.toNat) % 2 ^ 64
    omega
  have none : n.toNat &&& (n.toNat - 1) = 0 := by
    rw [less]
    exact congrArg BitVec.toNat disjoint
  have low : 2 ^ n.toNat.log2 ≤ n.toNat := Nat.log2_self_le positive
  have high : n.toNat < 2 ^ (n.toNat.log2 + 1) := Nat.lt_log2_self
  -- Otherwise the number and the one before it share their highest bit.
  by_contra different
  have strict : 2 ^ n.toNat.log2 ≤ n.toNat - 1 := by
    have : n.toNat ≠ 2 ^ n.toNat.log2 := different
    omega
  have bit := Nat.testBit_of_two_pow_le_and_two_pow_add_one_gt low high
  have bit' := Nat.testBit_of_two_pow_le_and_two_pow_add_one_gt strict (by omega)
  have both : (n.toNat &&& (n.toNat - 1)).testBit n.toNat.log2 = true := by
    rw [Nat.testBit_and, bit, bit', Bool.and_true]
  rw [none, Nat.zero_testBit] at both
  cases both

theorem log2Exact_lt (n : BitVec 64) : log2Exact n < 64 := by
  unfold log2Exact
  rcases Nat.eq_zero_or_pos n.toNat with zero | positive
  · rw [zero]
    decide
  · exact (Nat.log2_lt positive.ne').mpr n.isLt

theorem shifted_zero (size s1 s2 : Nat) : shifted size s1 s2 0 = 0 := by
  unfold shifted
  rw [Nat.zero_mul, Nat.zero_mod, Nat.zero_div, ite_self]

theorem shifted_lt {size s1 s2 n : Nat} (small : n < 2 ^ size) :
    shifted size s1 s2 n < 2 ^ size := by
  unfold shifted
  by_cases order : s1 ≤ s2
  · rw [if_pos order]
    exact Nat.mod_lt _ (Nat.two_pow_pos size)
  · rw [if_neg order]
    exact lt_of_le_of_lt (Nat.div_le_self ..) small

/-- The power of two is shifted to the other one, or it is too large for the width. -/
theorem shifted_pow (size s1 s2 : Nat) :
    2 ^ s1 % 2 ^ size = 0 ∨ shifted size s1 s2 (2 ^ s1 % 2 ^ size) = 2 ^ s2 % 2 ^ size := by
  rcases Nat.lt_or_ge s1 size with small | large
  · right
    have whole : 2 ^ s1 % 2 ^ size = 2 ^ s1 :=
      Nat.mod_eq_of_lt (Nat.pow_lt_pow_right (by decide) small)
    unfold shifted
    rw [whole]
    by_cases order : s1 ≤ s2
    · rw [if_pos order, ← pow_add, Nat.add_sub_cancel' order]
    · have less : s2 < s1 := Nat.lt_of_not_le order
      have fits : 2 ^ s2 < 2 ^ size := Nat.pow_lt_pow_right (by decide) (less.trans small)
      rw [if_neg order, Nat.pow_div (Nat.sub_le ..) (by decide), Nat.sub_sub_self less.le,
        Nat.mod_eq_of_lt fits]
  · left
    exact Nat.mod_eq_zero_of_dvd (pow_dvd_pow 2 large)

theorem preserves_shifted_iff (select : IsSelect graph number target insn) {inner : Instruction}
    {a b : BitVec 64}
    (small : ∀ value, Evaluates graph.defs value → value insn.src1 < 2 ^ insn.size) :
    Preserves graph target insn ((SelectRule.shift inner a b).apply graph target insn) ↔
      ∀ value, Evaluates graph.defs value →
        shifted insn.size (log2Exact a) (log2Exact b) (value insn.src1) =
          chosen insn value % 2 ^ insn.size := by
  simp only [SelectRule.apply]
  by_cases same : log2Exact a = log2Exact b
  · rw [if_pos same]
    refine (preserves_replace_iff select.wf select.before1).trans ?_
    refine forall₂_congr fun value evaluates => ?_
    unfold shifted
    rw [if_pos same.le, same, Nat.sub_self, pow_zero, Nat.mul_one]
  · rw [if_neg same]
    have operands : ∀ count, ∀ slot pseudo, (slot, pseudo) ∈ Instruction.operands
        { insn with
          opcode := if log2Exact a < log2Exact b then .shl else .lsr
          src2 := .val count } → Before number target pseudo := by
      intro count slot pseudo member
      have listed : (slot, pseudo) = (.src1, insn.src1) ∨ (slot, pseudo) = (.src2, .val count) := by
        unfold Instruction.operands at member
        by_cases order : log2Exact a < log2Exact b
        · simp only [if_pos order] at member
          rcases member with _ | ⟨_, _ | ⟨_, member⟩⟩
          · exact .inl rfl
          · exact .inr rfl
          · cases member
        · simp only [if_neg order] at member
          rcases member with _ | ⟨_, _ | ⟨_, member⟩⟩
          · exact .inl rfl
          · exact .inr rfl
          · cases member
      rcases listed with here | here
      · cases here
        exact select.before1
      · cases here
        rintro reg ⟨⟩
    refine (preserves_target_iff select.wf select.defined (operands _)).trans ?_
    refine forall₂_congr fun value evaluates => ?_
    have size := small value evaluates
    have boundA := log2Exact_lt a
    have boundB := log2Exact_lt b
    have result : Instruction.eval
        { insn with
          opcode := if log2Exact a < log2Exact b then .shl else .lsr
          src2 := .val (BitVec.ofNat 64 (if log2Exact a < log2Exact b then log2Exact b - log2Exact a
            else log2Exact a - log2Exact b)) }
        (value insn.src1)
        (value (.val (BitVec.ofNat 64 (if log2Exact a < log2Exact b then log2Exact b - log2Exact a
          else log2Exact a - log2Exact b)))) (value insn.src3) =
        shifted insn.size (log2Exact a) (log2Exact b) (value insn.src1) := by
      rw [evaluates.constant, BitVec.toNat_ofNat]
      unfold Instruction.eval shifted
      by_cases order : log2Exact a < log2Exact b
      · simp only [if_pos order, if_pos order.le]
        rw [BitVec.toNat_shiftLeft, BitVec.toNat_ofNat, Nat.mod_eq_of_lt size, Nat.shiftLeft_eq,
          Nat.mod_eq_of_lt (lt_of_le_of_lt (Nat.sub_le ..) (boundB.trans (by decide)))]
      · have order' : ¬ log2Exact a ≤ log2Exact b := fun le => order (lt_of_le_of_ne le same)
        simp only [if_neg order, if_neg order']
        rw [BitVec.toNat_ushiftRight, BitVec.toNat_ofNat, Nat.mod_eq_of_lt size,
          Nat.shiftRight_eq_div_pow,
          Nat.mod_eq_of_lt (lt_of_le_of_lt (Nat.sub_le ..) (boundA.trans (by decide)))]
    rw [result, Nat.mod_eq_of_lt (shifted_lt size)]

theorem preserves_shift_iff (select : IsSelect graph number target insn) {inner : Instruction}
    {a b : BitVec 64} (fits : (SelectRule.shift inner a b).Matches graph insn) :
    Preserves graph target insn ((SelectRule.shift inner a b).apply graph target insn) ↔
      ∀ value, Evaluates graph.defs value → (SelectRule.shift inner a b).Sound insn value := by
  obtain ⟨opcode, defines, powA, powB, innerA, arm2, arm3, size⟩ := fits
  have operand : ∀ {value}, Evaluates graph.defs value → value inner.src2 = 2 ^ log2Exact a := by
    intro value evaluates
    rw [innerA, evaluates.constant, toNat_of_isPowerOf2 powA]
  have and_eq : ∀ {value}, Evaluates graph.defs value → inner.opcode = .and →
      value insn.src1 = value inner.src1 % 2 ^ insn.size &&& 2 ^ log2Exact a % 2 ^ insn.size := by
    intro value evaluates opcode
    rw [defines.value_eq evaluates]
    unfold Instruction.eval
    rw [opcode]
    simp only [BitVec.toNat_and, BitVec.toNat_ofNat, operand evaluates, size]
  have sel_eq : ∀ {value}, Evaluates graph.defs value → inner.opcode = .sel →
      value insn.src1 = chosen inner value % 2 ^ insn.size := by
    intro value evaluates opcode
    rw [defines.value_eq evaluates, eval_sel opcode, size]
  refine (preserves_shifted_iff select ?_).trans ?_
  · intro value evaluates
    rcases opcode with opcode | opcode
    · rw [and_eq evaluates opcode]
      exact Nat.and_lt_two_pow _ (Nat.mod_lt _ (Nat.two_pow_pos _))
    · rw [sel_eq evaluates opcode]
      exact Nat.mod_lt _ (Nat.two_pow_pos _)
  refine forall₂_congr fun value evaluates => ?_
  have arm : value insn.src2 = 2 ^ log2Exact b := by
    rw [arm2, evaluates.constant, toNat_of_isPowerOf2 powB]
  have nought : value insn.src3 = 0 := by
    rw [arm3]
    exact evaluates.constant 0
  have required : shifted insn.size (log2Exact a) (log2Exact b) (value insn.src1) =
        chosen insn value % 2 ^ insn.size ↔
      value insn.src1 = 0 ∨ shifted insn.size (log2Exact a) (log2Exact b) (value insn.src1) =
        2 ^ log2Exact b % 2 ^ insn.size := by
    by_cases zero : value insn.src1 = 0
    · rw [chosen_of_eq_zero zero, nought, zero, shifted_zero, Nat.zero_mod]
      exact ⟨fun _ => .inl rfl, fun _ => rfl⟩
    · rw [chosen_of_ne_zero zero, arm]
      exact ⟨.inr, fun either => either.resolve_left zero⟩
  rw [required]
  change _ ↔ (inner.opcode = .sel → _ → _)
  rcases opcode with opcode | opcode
  · -- The mask leaves zero or the power of two itself.
    refine ⟨fun _ other => absurd (opcode.symm.trans other) (by decide), fun _ => ?_⟩
    rw [and_eq evaluates opcode]
    rcases shifted_pow insn.size (log2Exact a) (log2Exact b) with zero | moved
    · left
      rw [zero, Nat.and_zero]
    · rcases Nat.lt_or_ge (log2Exact a) insn.size with small | large
      · have whole : 2 ^ log2Exact a % 2 ^ insn.size = 2 ^ log2Exact a :=
          Nat.mod_eq_of_lt (Nat.pow_lt_pow_right (by decide) small)
        rw [whole] at moved ⊢
        rw [Nat.and_two_pow]
        cases Nat.testBit (value inner.src1 % 2 ^ insn.size) (log2Exact a) with
        | false => exact .inl (Nat.zero_mul _)
        | true => exact .inr (by rw [Bool.toNat_true, Nat.one_mul]; exact moved)
      · left
        rw [Nat.mod_eq_zero_of_dvd (pow_dvd_pow 2 large), Nat.and_zero]
  · rw [sel_eq evaluates opcode]
    by_cases taken : value inner.src1 = 0
    · rw [chosen_of_eq_zero taken]
      exact ⟨fun either _ _ => either, fun either => either opcode taken⟩
    · rw [chosen_of_ne_zero taken, operand evaluates]
      exact ⟨fun _ _ zero => absurd zero taken, fun _ => shifted_pow ..⟩

/-! ## Moving an operation out of an arm -/

/-- The operations that are moved, on numbers without a width. -/
def plain : Opcode → Nat → Nat → Nat
  | .or => fun m n => m ||| n
  | .xor => fun m n => m ^^^ n
  | _ => fun m n => m + n

def IsPlain (opcode : Opcode) : Prop := opcode = .add ∨ opcode = .or ∨ opcode = .xor

theorem eval_plain {op : Instruction} (opcode : IsPlain op.opcode) (v1 v2 v3 : Nat) :
    op.eval v1 v2 v3 = plain op.opcode v1 v2 % 2 ^ op.size := by
  unfold Instruction.eval plain
  rcases opcode with opcode | opcode | opcode <;> rw [opcode]
  · simp only [BitVec.toNat_add, BitVec.toNat_ofNat, Nat.add_mod_mod, Nat.mod_add_mod]
  · simp only [BitVec.toNat_or, BitVec.toNat_ofNat, Nat.or_mod_two_pow]
  · simp only [BitVec.toNat_xor, BitVec.toNat_ofNat, Nat.xor_mod_two_pow]

section

variable {opcode : Opcode} (kind : IsPlain opcode)
include kind

theorem plain_comm (m n : Nat) :
    plain opcode m n = plain opcode n m := by
  rcases kind with rfl | rfl | rfl
  · exact Nat.add_comm m n
  · exact Nat.or_comm m n
  · exact Nat.xor_comm m n

theorem plain_zero (n : Nat) : plain opcode 0 n = n := by
  rcases kind with rfl | rfl | rfl
  · exact Nat.zero_add n
  · exact Nat.zero_or n
  · exact Nat.zero_xor n

theorem plain_mod (size m n : Nat) :
    plain opcode (m % 2 ^ size) n % 2 ^ size = plain opcode m n % 2 ^ size := by
  rcases kind with rfl | rfl | rfl
  · exact Nat.mod_add_mod ..
  · simp only [plain, Nat.or_mod_two_pow, Nat.mod_mod]
  · simp only [plain, Nat.xor_mod_two_pow, Nat.mod_mod]

theorem plain_widths_iff (size inner z y : Nat) :
    plain opcode (z % 2 ^ inner) y % 2 ^ size = plain opcode z y % 2 ^ inner % 2 ^ size ↔
      size ≤ inner ∨ plain opcode (z % 2 ^ inner) y % 2 ^ size < 2 ^ inner := by
  rcases Nat.lt_or_ge inner size with wide | narrow
  rotate_left
  · have divides := pow_dvd_pow 2 narrow
    rw [Nat.mod_mod_of_dvd _ divides, ← plain_mod kind size (z % 2 ^ inner),
      Nat.mod_mod_of_dvd _ divides, plain_mod kind]
    exact ⟨fun _ => .inl narrow, fun _ => rfl⟩
  · have divides := pow_dvd_pow 2 wide.le
    have small : plain opcode z y % 2 ^ inner < 2 ^ size :=
      (Nat.mod_lt _ (Nat.two_pow_pos _)).trans (Nat.pow_lt_pow_right (by decide) wide)
    rw [Nat.mod_eq_of_lt small, ← plain_mod kind inner z y,
      ← Nat.mod_mod_of_dvd (plain opcode (z % 2 ^ inner) y) divides]
    constructor
    · intro same
      right
      rw [same]
      exact Nat.mod_lt _ (Nat.two_pow_pos _)
    · rintro (narrow | fits)
      · exact absurd narrow (not_le.mpr wide)
      · exact (Nat.mod_eq_of_lt fits).symm

end

theorem fits_iff {op : Instruction} (kind : IsPlain op.opcode) (z y : Pseudo)
    (value : Pseudo → Nat) :
    Fits insn op z y value ↔
      plain op.opcode (value z % 2 ^ op.size) (value y) % 2 ^ insn.size =
        plain op.opcode (value z) (value y) % 2 ^ op.size % 2 ^ insn.size := by
  rw [plain_widths_iff kind]
  unfold Fits
  rw [eval_plain (by exact kind)]

/-- Both rules, for the arm in one slot and the other arm in another. -/
theorem preserves_swapSelect_iff (select : IsSelect graph number target insn) {arm other : Pseudo}
    {slot slot' : Slot} (different : slot ≠ slot') (member : (slot, arm) ∈ insn.operands)
    (member' : (slot', other) ∈ insn.operands) {reg : Nat} {op : Instruction} {z : Pseudo}
    (factors : Factors graph insn.src1 arm other reg op z) {b c : Pseudo}
    (operandB : b = z ∨ b = .val 0) (operandC : c = z ∨ c = .val 0) :
    Preserves graph target insn
        ⟨swapSelect graph target insn reg op insn.src1 b c other, .reg target⟩ ↔
      ∀ value, Evaluates graph.defs value →
        plain op.opcode ((if value insn.src1 ≠ 0 then value b else value c) % 2 ^ op.size)
            (value other) % 2 ^ insn.size =
          chosen insn value % 2 ^ insn.size := by
  obtain ⟨rfl, defined, kind, moves, sides⟩ := factors
  unfold Graph.canMoveTo at moves
  rw [Bool.and_eq_true] at moves
  obtain ⟨once, moves⟩ := moves
  have use := select.wf.used target insn select.defined slot reg member
  have beforeReg : number reg < number target :=
    before_operand select.wf select.defined member reg rfl
  have notTarget : reg ≠ target := by
    rintro rfl
    exact lt_irrefl _ beforeReg
  have otherNe : other ≠ .reg reg := by
    rintro rfl
    cases eq_of_oneUse once use (select.wf.used target insn select.defined slot' reg member')
    exact different rfl
  have beforeZ : Before number reg z := by
    have operands : op.operands = [(.src1, op.src1), (.src2, op.src2)] := by
      unfold Instruction.operands
      rcases kind with opcode | opcode | opcode <;> rw [opcode] <;> rfl
    rcases sides with ⟨-, rfl⟩ | ⟨-, rfl⟩
    · have second : (.src2, op.src2) ∈ op.operands := operands ▸ .tail _ (.head _)
      exact before_operand select.wf defined second
    · have first : (.src1, op.src1) ∈ op.operands := operands ▸ .head _
      exact before_operand select.wf defined first
  have beforeCond : Before number reg insn.src1 := by
    intro used same
    rw [same] at moves
    simp only [Bool.and_eq_true, bne_iff_ne] at moves
    exact select.wf.before used reg moves.1 moves.2
  have beforeArm : ∀ {pseudo : Pseudo}, pseudo = z ∨ pseudo = .val 0 →
    Before number reg pseudo := by
    rintro pseudo (rfl | rfl)
    · exact beforeZ
    · rintro _ ⟨⟩
  have edit : PairEdit graph (swapSelect graph target insn reg op insn.src1 b c other) number target
      reg { insn with opcode := op.opcode, src1 := .reg reg, src2 := other }
      { op with opcode := insn.opcode, src1 := insn.src1, src2 := b, src3 := c } := by
    refine ⟨Function.update_self .., ?_, ?_, ⟨?_, ?_⟩, beforeReg, ?_, ?_, ?_⟩
    · exact (Function.update_of_ne notTarget ..).trans (Function.update_self ..)
    · intro this one two
      exact (Function.update_of_ne one ..).trans (Function.update_of_ne two ..)
    · rw [select.defined]
      nofun
    · rw [defined]
      nofun
    · intro use' member
      rw [eq_of_oneUse once use member]
    · intro slot pseudo member
      have listed : (slot, pseudo) = (.src1, .reg reg) ∨ (slot, pseudo) = (.src2, other) := by
        unfold Instruction.operands at member
        rcases kind with opcode | opcode | opcode <;>
          · simp only [opcode] at member
            rcases member with _ | ⟨_, _ | ⟨_, member⟩⟩
            · exact .inl rfl
            · exact .inr rfl
            · cases member
      rcases listed with same | same
      · cases same
        rintro _ ⟨⟩
        exact beforeReg
      · cases same
        exact before_operand select.wf select.defined member'
    · intro slot pseudo member
      unfold Instruction.operands at member
      simp only [select.opcode] at member
      rcases member with _ | ⟨_, _ | ⟨_, _ | ⟨_, member⟩⟩⟩
      · exact beforeCond
      · exact beforeArm operandB
      · exact beforeArm operandC
      · cases member
  refine (edit.preserves_iff select.wf).trans ?_
  refine forall₂_congr fun value evaluates => ?_
  rw [eval_plain (by exact kind), Nat.mod_mod]
  simp only [afterEdit_self, afterEdit_of_ne _ _ otherNe]
  have selected : Instruction.eval
      { op with opcode := insn.opcode, src1 := insn.src1, src2 := b, src3 := c }
      (value insn.src1) (value b) (value c) =
      (if value insn.src1 ≠ 0 then value b else value c) % 2 ^ op.size :=
    eval_sel select.opcode
  rw [selected]

/-- The arm that is an operation, and the other arm. -/
theorem Factors.value_eq {cond arm other : Pseudo} {reg : Nat} {op : Instruction} {z : Pseudo}
    (factors : Factors graph cond arm other reg op z) {value : Pseudo → Nat}
    (evaluates : Evaluates graph.defs value) :
    value arm = plain op.opcode (value z) (value other) % 2 ^ op.size := by
  obtain ⟨rfl, defined, kind, -, sides⟩ := factors
  rw [evaluates.defined reg op defined, eval_plain kind]
  rcases sides with ⟨rfl, rfl⟩ | ⟨rfl, rfl⟩
  · rw [plain_comm kind]
  · rfl

theorem preserves_factorTrue_iff (select : IsSelect graph number target insn) {reg : Nat}
    {op : Instruction} {z : Pseudo}
    (factors : Factors graph insn.src1 insn.src2 insn.src3 reg op z) :
    Preserves graph target insn ((SelectRule.factorTrue reg op z).apply graph target insn) ↔
      ∀ value, Evaluates graph.defs value → (SelectRule.factorTrue reg op z).Sound insn value := by
  refine (preserves_swapSelect_iff select (by decide) select.member2 select.member3 factors
    (.inl rfl) (.inr rfl)).trans ?_
  refine forall₂_congr fun value evaluates => ?_
  have nought : value (.val 0) = 0 := evaluates.constant 0
  change _ ↔ (value insn.src1 ≠ 0 → Fits insn op z insn.src3 value)
  rw [fits_iff factors.opcode]
  by_cases zero : value insn.src1 = 0
  · rw [if_neg (not_not.mpr zero), nought, Nat.zero_mod, plain_zero factors.opcode,
      chosen_of_eq_zero zero]
    exact ⟨fun _ taken => absurd zero taken, fun _ => rfl⟩
  · rw [if_pos zero, chosen_of_ne_zero zero, factors.value_eq evaluates]
    exact ⟨fun same _ => same, fun same => same zero⟩

theorem preserves_factorFalse_iff (select : IsSelect graph number target insn) {reg : Nat}
    {op : Instruction} {z : Pseudo}
    (factors : Factors graph insn.src1 insn.src3 insn.src2 reg op z) :
    Preserves graph target insn ((SelectRule.factorFalse reg op z).apply graph target insn) ↔
      ∀ value, Evaluates graph.defs value → (SelectRule.factorFalse reg op z).Sound insn value := by
  refine (preserves_swapSelect_iff select (by decide) select.member3 select.member2 factors
    (.inr rfl) (.inl rfl)).trans ?_
  refine forall₂_congr fun value evaluates => ?_
  have nought : value (.val 0) = 0 := evaluates.constant 0
  change _ ↔ (value insn.src1 = 0 → Fits insn op z insn.src2 value)
  rw [fits_iff factors.opcode]
  by_cases zero : value insn.src1 = 0
  · rw [if_neg (not_not.mpr zero), chosen_of_eq_zero zero, factors.value_eq evaluates]
    exact ⟨fun same _ => same, fun same => same zero⟩
  · rw [if_pos zero, nought, Nat.zero_mod, plain_zero factors.opcode, chosen_of_ne_zero zero]
    exact ⟨fun _ here => absurd here zero, fun _ => rfl⟩

/-! ## All rules -/

/-- Without a rule the select stays as it is. -/
theorem preserves_none (select : IsSelect graph number target insn) :
    Preserves graph target insn ((SelectRule.none).apply graph target insn) := by
  refine ⟨fun reg _ changed => absurd rfl changed, fun value evaluates => ?_⟩
  refine ⟨value, evaluates, ⟨fun _ => rfl, fun _ _ => rfl⟩, ?_⟩
  change value (.reg target) % _ = _
  rw [evaluates.defined target insn select.defined, eval_sel select.opcode, Nat.mod_mod]

/-- The select keeps its meaning exactly when the rule that is used is right about the
values of its operands. -/
theorem simplifySelect_preserves_iff (select : IsSelect graph number target insn) :
    Preserves graph target insn (simplifySelect graph target insn) ↔
      ∀ value, Evaluates graph.defs value → (selectRule graph insn).Sound insn value := by
  have fits := matches_selectRule graph insn
  unfold simplifySelect
  generalize selectRule graph insn = rule at fits ⊢
  cases rule with
  | constant n => exact iff_of_true (preserves_constant select fits) fun _ _ => trivial
  | same => exact iff_of_true (preserves_same select fits) fun _ _ => trivial
  | zeroOne opcode zero => exact preserves_zeroOne_iff select fits
  | selfFalse => exact iff_of_true (preserves_selfFalse select fits.1 fits.2) fun _ _ => trivial
  | selfTrue => exact iff_of_true (preserves_selfTrue select fits.1 fits.2) fun _ _ => trivial
  | equal cmp => exact preserves_equal_iff select fits.1 fits.2.1 fits.2.2
  | notEqual cmp => exact preserves_notEqual_iff select fits.1 fits.2.1 fits.2.2
  | negate reg cmp => exact iff_of_true (preserves_negate select fits) fun _ _ => trivial
  | greater reg cmp => exact preserves_greater_iff select fits
  | selectSame inner => exact preserves_selectSame_iff select fits
  | selectCond inner => exact preserves_selectCond_iff select fits
  | selectSwap inner => exact preserves_selectSwap_iff select fits
  | selectTrue inner => exact preserves_selectTrue_iff select fits
  | shift inner a b => exact preserves_shift_iff select fits
  | factorTrue reg op z => exact preserves_factorTrue_iff select fits
  | factorFalse reg op z => exact preserves_factorFalse_iff select fits
  | none => exact iff_of_true (preserves_none select) fun _ _ => trivial

end Rules

/-! ## The sign of a value -/

/-- The comparison `x > 0` of two arguments' code, at 32 bits. -/
def positive : Instruction := ⟨.setGt, 32, 32, .arg 0, .val 0, .val 0⟩

def negation (a : Nat) : Instruction := ⟨.neg, 32, 32, .arg a, .val 0, .val 0⟩

def signed (a : Nat) : Instruction := ⟨.sel, 32, 32, .reg 0, .arg a, .reg 1⟩

/-- The code of `x > 0 ? a : -a` for the arguments `x` and `a`. -/
def signGraph (a : Nat) : Graph where
  defs
    | 0 => some positive
    | 1 => some (negation a)
    | 2 => some (signed a)
    | _ => none
  users
    | 0 => [(2, .src1)]
    | 1 => [(2, .src3)]
    | _ => []
  bb _ := 0
  insns _ := [0, 1, 2]
  dominates _ _ := false

theorem isSelect_signGraph (a : Nat) : IsSelect (signGraph a) id 2 (signed a) := by
  refine ⟨⟨?_, ?_, ?_⟩, rfl, rfl⟩
  · intro reg insn defined slot used member
    rcases reg with _ | _ | _ | reg
    · cases defined
      rcases member with _ | ⟨_, _ | ⟨_, member⟩⟩
      cases member
    · cases defined
      rcases member with _ | ⟨_, member⟩
      cases member
    · cases defined
      rcases member with _ | ⟨_, _ | ⟨_, _ | ⟨_, member⟩⟩⟩
      · exact Nat.zero_lt_two
      · exact Nat.one_lt_two
      · cases member
    · cases defined
  · intro reg insn defined slot used member
    rcases reg with _ | _ | _ | reg
    · cases defined
      rcases member with _ | ⟨_, _ | ⟨_, member⟩⟩
      cases member
    · cases defined
      rcases member with _ | ⟨_, member⟩
      cases member
    · cases defined
      rcases member with _ | ⟨_, _ | ⟨_, _ | ⟨_, member⟩⟩⟩
      · exact .head _
      · exact .head _
      · cases member
    · cases defined
  · intro x y different before
    simp only [Graph.comesBefore, signGraph, if_true, insnBefore] at before
    simp only [id_eq]
    by_contra order
    rcases x with _ | _ | _ | x <;> rcases y with _ | _ | _ | y <;> simp_all

theorem selectRule_signGraph (a : Nat) :
    selectRule (signGraph a) (signed a) = .greater 0 positive := by
  simp [selectRule, signed, zeroOneRule, Graph.def?, signGraph, condRule, positive,
    Graph.oneUse, Pseudo.isZero, Graph.isNegateOf, negation]

/-- The two instructions that the select uses have the values of their operands. -/
theorem value_negation {a : Nat} {value : Pseudo → Nat}
    (evaluates : Evaluates (signGraph a).defs value) :
    value (.reg 1) = (-BitVec.ofNat 32 (value (.arg a))).toNat :=
  evaluates.defined 1 (negation a) rfl

/-- `x > 0 ? x : -x` becomes `x >= 0 ? x : -x`. -/
theorem preserves_abs :
    IsSelect (signGraph 0) id 2 (signed 0) ∧
      Preserves (signGraph 0) 2 (signed 0) (simplifySelect (signGraph 0) 2 (signed 0)) := by
  refine ⟨isSelect_signGraph 0, (simplifySelect_preserves_iff (isSelect_signGraph 0)).mpr ?_⟩
  intro value evaluates
  rw [selectRule_signGraph]
  intro zero
  change value (.arg 0) % 2 ^ 32 = 0 at zero
  have argument : BitVec.ofNat 32 (value (.arg 0)) = 0 := BitVec.eq_of_toNat_eq zero
  change value (.arg 0) % 2 ^ 32 = value (.reg 1) % 2 ^ 32
  rw [value_negation evaluates, argument, zero]
  rfl

/-- `x > 0 ? a : -a` becomes `x >= 0 ? a : -a`. -/
theorem not_preserves_sign :
    IsSelect (signGraph 1) id 2 (signed 1) ∧
      ¬ Preserves (signGraph 1) 2 (signed 1) (simplifySelect (signGraph 1) 2 (signed 1)) := by
  refine ⟨isSelect_signGraph 1, ?_⟩
  unfold simplifySelect
  rw [selectRule_signGraph]
  have fits := matches_selectRule (signGraph 1) (signed 1)
  rw [selectRule_signGraph] at fits
  rw [preserves_greater_iff (isSelect_signGraph 1) fits]
  intro sound
  obtain ⟨value, evaluates, leaves⟩ :=
    (isSelect_signGraph 1).wf.ordered.exists_evaluates fun pseudo =>
      if pseudo = .arg 1 then 1 else 0
  have x : value (.arg 0) = 0 := leaves.1 0
  have a : value (.arg 1) = 1 := leaves.1 1
  have same : value (.arg 1) % 2 ^ 32 = value (.reg 1) % 2 ^ 32 := by
    refine sound value evaluates ?_
    change value (.arg 0) % 2 ^ 32 = 0
    rw [x]
    rfl
  rw [value_negation evaluates, a] at same
  exact absurd same (by decide)

end SmatchFormal.Ir
