import SmatchFormal.Ir.SelectRules

/-!
# Replacing a select

The condition on the operands under which each rule of `simplify_select` is
sound, and its proof for the rules that look at comparisons, at constants and
at other selects.
-/

namespace SmatchFormal.Ir

open Function

/-! ## The table -/

def SameArms (insn : Instruction) (value : Pseudo → Nat) : Prop :=
  value insn.src2 % 2 ^ insn.size = value insn.src3 % 2 ^ insn.size

/-- The value of the shift of `SEL(x & A, B, 0)`, or of the condition itself. -/
def shifted (size s1 s2 n : Nat) : Nat :=
  if s1 ≤ s2 then n * 2 ^ (s2 - s1) % 2 ^ size else n / 2 ^ (s1 - s2)

def Fits (insn op : Instruction) (z y : Pseudo) (value : Pseudo → Nat) : Prop :=
  insn.size ≤ op.size ∨
    { insn with opcode := op.opcode }.eval (value z % 2 ^ op.size) (value y) 0 < 2 ^ op.size

def SelectRule.Sound (insn : Instruction) (value : Pseudo → Nat) : SelectRule → Prop
  | .zeroOne _ _ => 0 < insn.size → value insn.src1 % 2 ^ insn.size = 0 → value insn.src1 = 0
  | .equal cmp | .notEqual cmp =>
    value insn.src2 % 2 ^ cmp.itype = value insn.src3 % 2 ^ cmp.itype → SameArms insn value
  | .greater _ cmp => value cmp.src1 % 2 ^ cmp.itype = 0 → SameArms insn value
  | .selectSame inner => value inner.src1 ≠ 0 → value inner.src2 % 2 ^ inner.size ≠ 0 →
      value inner.src2 % 2 ^ inner.size % 2 ^ insn.size = value inner.src2 % 2 ^ insn.size
  | .selectCond inner => value inner.src1 ≠ 0 → value inner.src2 % 2 ^ inner.size = 0 →
      SameArms insn value
  | .selectSwap inner => value inner.src1 = 0 → value inner.src3 % 2 ^ inner.size = 0 →
      SameArms insn value
  | .selectTrue inner => chosen inner value % 2 ^ inner.size = 0 → SameArms insn value
  | .shift inner a b => inner.opcode = .sel → value inner.src1 = 0 →
      value inner.src3 % 2 ^ insn.size = 0 ∨
        shifted insn.size (log2Exact a) (log2Exact b) (value inner.src3 % 2 ^ insn.size) =
          2 ^ log2Exact b % 2 ^ insn.size
  | .factorTrue _ op z => value insn.src1 ≠ 0 → Fits insn op z insn.src3 value
  | .factorFalse _ op z => value insn.src1 = 0 → Fits insn op z insn.src2 value
  | _ => True

section Eval

variable {insn : Instruction} {value : Pseudo → Nat}

theorem eval_sel (opcode : insn.opcode = .sel) :
    insn.eval (value insn.src1) (value insn.src2) (value insn.src3) =
      chosen insn value % 2 ^ insn.size := by
  unfold Instruction.eval chosen
  rw [opcode]
  by_cases taken : value insn.src1 ≠ 0
  · simp only [if_pos taken, BitVec.toNat_ofNat]
  · simp only [if_neg taken, BitVec.toNat_ofNat]

theorem chosen_of_ne_zero (taken : value insn.src1 ≠ 0) : chosen insn value = value insn.src2 :=
  if_pos taken

theorem chosen_of_eq_zero (zero : value insn.src1 = 0) : chosen insn value = value insn.src3 :=
  if_neg (not_not.mpr zero)

theorem truth_eq_zero {holds : Bool} : Instruction.truth holds = 0 ↔ holds = false := by
  cases holds <;> decide

/-- A comparison that is read as a number of some width. -/
theorem truth_mod_iff {size : Nat} (holds taken : Prop) [Decidable holds] [Decidable taken] :
    Instruction.truth (decide holds) % 2 ^ size = (if taken then 1 else 0) % 2 ^ size ↔
      (0 < size → (holds ↔ taken)) := by
  rcases Nat.eq_zero_or_pos size with rfl | positive
  · simp only [pow_zero, Nat.mod_one, lt_irrefl, false_imp_iff]
  · have small : 1 < 2 ^ size := Nat.one_lt_two_pow positive.ne'
    by_cases yes : holds <;> by_cases also : taken <;>
      simp only [Instruction.truth, yes, also, decide_true, decide_false, if_true, if_false,
        Bool.false_eq_true, Nat.mod_eq_of_lt small, Nat.zero_mod, positive, true_imp_iff,
        iff_true, iff_false, not_true, zero_ne_one, one_ne_zero, iff_self]

theorem ofNat_eq_iff {width m n : Nat} :
    BitVec.ofNat width m = BitVec.ofNat width n ↔ m % 2 ^ width = n % 2 ^ width := by
  rw [← BitVec.toNat_inj, BitVec.toNat_ofNat, BitVec.toNat_ofNat]

end Eval

section Rules

variable {graph : Graph} {number : Nat → Nat} {target : Nat} {insn : Instruction}

structure IsSelect (graph : Graph) (number : Nat → Nat) (target : Nat) (insn : Instruction) :
    Prop where
  wf : graph.WellFormed number
  defined : graph.defs target = some insn
  opcode : insn.opcode = .sel

namespace IsSelect

section

variable (select : IsSelect graph number target insn)
include select

theorem member1 : (.src1, insn.src1) ∈ insn.operands := by
  unfold Instruction.operands
  rw [select.opcode]
  exact .head _

theorem member2 : (.src2, insn.src2) ∈ insn.operands := by
  unfold Instruction.operands
  rw [select.opcode]
  exact .tail _ (.head _)

theorem member3 : (.src3, insn.src3) ∈ insn.operands := by
  unfold Instruction.operands
  rw [select.opcode]
  exact .tail _ (.tail _ (.head _))

theorem before1 : Before number target insn.src1 :=
  before_operand select.wf select.defined select.member1

theorem before2 : Before number target insn.src2 :=
  before_operand select.wf select.defined select.member2

theorem before3 : Before number target insn.src3 :=
  before_operand select.wf select.defined select.member3

end

end IsSelect

theorem DefinesCond.value_eq {inner : Instruction} (defines : DefinesCond graph insn inner)
    {value : Pseudo → Nat} (evaluates : Evaluates graph.defs value) :
    value insn.src1 = inner.eval (value inner.src1) (value inner.src2) (value inner.src3) := by
  obtain ⟨reg, cond, defined⟩ := defines
  rw [cond]
  exact evaluates.defined reg inner defined

section

variable (select : IsSelect graph number target insn)
include select

theorem preserves_constant {n : BitVec 64} (fits : insn.src1 = .val n) :
    Preserves graph target insn ((SelectRule.constant n).apply graph target insn) := by
  have before : Before number target (if n ≠ 0 then insn.src2 else insn.src3) := by
    by_cases zero : n ≠ 0
    · rw [if_pos zero]
      exact select.before2
    · rw [if_neg zero]
      exact select.before3
  refine (preserves_replace_iff select.wf before).mpr ?_
  intro value evaluates
  have cond : value insn.src1 = n.toNat := by
    rw [fits]
    exact evaluates.constant n
  by_cases zero : n = 0
  · rw [if_neg (not_not.mpr zero), chosen_of_eq_zero (by rw [cond, zero]; rfl)]
  · have nonzero : value insn.src1 ≠ 0 := by
      rw [cond]
      exact fun same => zero (BitVec.eq_of_toNat_eq same)
    rw [if_pos zero, chosen_of_ne_zero nonzero]

theorem preserves_same (fits : insn.src2 = insn.src3) :
    Preserves graph target insn ((SelectRule.same).apply graph target insn) := by
  refine (preserves_replace_iff select.wf select.before2).mpr ?_
  intro value _
  unfold chosen
  rw [← fits, ite_self]

theorem preserves_selfFalse (cond : insn.src1 = insn.src3) (zero : insn.src2 = .val 0) :
    Preserves graph target insn ((SelectRule.selfFalse).apply graph target insn) := by
  refine (preserves_replace_iff select.wf select.before2).mpr ?_
  intro value evaluates
  by_cases taken : value insn.src1 = 0
  · have arm : value insn.src2 = 0 := by
      rw [zero]
      exact evaluates.constant 0
    rw [chosen_of_eq_zero taken, ← cond, taken, arm]
  · rw [chosen_of_ne_zero taken]

theorem preserves_selfTrue (cond : insn.src1 = insn.src2) (zero : insn.src3 = .val 0) :
    Preserves graph target insn ((SelectRule.selfTrue).apply graph target insn) := by
  refine (preserves_replace_iff select.wf select.before1).mpr ?_
  intro value evaluates
  by_cases taken : value insn.src1 = 0
  · have arm : value insn.src3 = 0 := by
      rw [zero]
      exact evaluates.constant 0
    rw [chosen_of_eq_zero taken, taken, arm]
  · rw [chosen_of_ne_zero taken, cond]

end

theorem arms_eq_iff {cmp : Instruction} (arms : armsOf insn cmp = true) (value : Pseudo → Nat) :
    BitVec.ofNat cmp.itype (value cmp.src1) = BitVec.ofNat cmp.itype (value cmp.src2) ↔
      value insn.src2 % 2 ^ cmp.itype = value insn.src3 % 2 ^ cmp.itype := by
  rw [ofNat_eq_iff]
  unfold armsOf at arms
  rw [Bool.or_eq_true, Bool.and_eq_true, Bool.and_eq_true, beq_iff_eq, beq_iff_eq, beq_iff_eq,
    beq_iff_eq] at arms
  rcases arms with ⟨left, right⟩ | ⟨left, right⟩
  · rw [left, right]
  · rw [left, right]
    exact eq_comm

theorem preserves_equal_iff (select : IsSelect graph number target insn) {cmp : Instruction}
    (opcode : cmp.opcode = .setEq) (defines : DefinesCond graph insn cmp)
    (arms : armsOf insn cmp = true) :
    Preserves graph target insn ((SelectRule.equal cmp).apply graph target insn) ↔
      ∀ value, Evaluates graph.defs value → (SelectRule.equal cmp).Sound insn value := by
  refine (preserves_replace_iff select.wf select.before3).trans ?_
  refine forall₂_congr fun value evaluates => ?_
  have cond : value insn.src1 = 0 ↔
      ¬ value insn.src2 % 2 ^ cmp.itype = value insn.src3 % 2 ^ cmp.itype := by
    rw [defines.value_eq evaluates, ← arms_eq_iff arms]
    unfold Instruction.eval
    rw [opcode, truth_eq_zero]
    exact beq_eq_false_iff_ne
  change value insn.src3 % _ = chosen insn value % _ ↔ (_ → SameArms insn value)
  unfold SameArms
  by_cases same : value insn.src2 % 2 ^ cmp.itype = value insn.src3 % 2 ^ cmp.itype
  · rw [chosen_of_ne_zero fun zero => cond.mp zero same]
    exact ⟨fun here _ => here.symm, fun here => (here same).symm⟩
  · rw [chosen_of_eq_zero (cond.mpr same)]
    exact ⟨fun _ here => absurd here same, fun _ => rfl⟩

theorem preserves_notEqual_iff (select : IsSelect graph number target insn) {cmp : Instruction}
    (opcode : cmp.opcode = .setNe) (defines : DefinesCond graph insn cmp)
    (arms : armsOf insn cmp = true) :
    Preserves graph target insn ((SelectRule.notEqual cmp).apply graph target insn) ↔
      ∀ value, Evaluates graph.defs value → (SelectRule.notEqual cmp).Sound insn value := by
  refine (preserves_replace_iff select.wf select.before2).trans ?_
  refine forall₂_congr fun value evaluates => ?_
  have cond : value insn.src1 = 0 ↔
      value insn.src2 % 2 ^ cmp.itype = value insn.src3 % 2 ^ cmp.itype := by
    rw [defines.value_eq evaluates, ← arms_eq_iff arms]
    unfold Instruction.eval
    rw [opcode, truth_eq_zero]
    exact bne_eq_false_iff_eq
  change value insn.src2 % _ = chosen insn value % _ ↔ (_ → SameArms insn value)
  unfold SameArms
  by_cases same : value insn.src2 % 2 ^ cmp.itype = value insn.src3 % 2 ^ cmp.itype
  · rw [chosen_of_eq_zero (cond.mpr same)]
    exact ⟨fun here _ => here, fun here => here same⟩
  · rw [chosen_of_ne_zero fun zero => same (cond.mp zero)]
    exact ⟨fun _ here => absurd here same, fun _ => rfl⟩

/-- The comparison with zero is at the width of the select. -/
theorem preserves_zeroOne_iff (select : IsSelect graph number target insn) {opcode : Opcode}
    {zero : Pseudo} (fits : (SelectRule.zeroOne opcode zero).Matches graph insn) :
    Preserves graph target insn ((SelectRule.zeroOne opcode zero).apply graph target insn) ↔
      ∀ value, Evaluates graph.defs value →
        (SelectRule.zeroOne opcode zero).Sound insn value := by
  obtain ⟨rfl, pair⟩ := fits
  have operands : ∀ slot pseudo, (slot, pseudo) ∈ Instruction.operands
      { insn with opcode := opcode, itype := insn.size, src2 := .val 0 } →
      Before number target pseudo := by
    intro slot pseudo member
    have listed : (slot, pseudo) = (.src1, insn.src1) ∨ (slot, pseudo) = (.src2, .val 0) := by
      rcases pair with ⟨rfl, -⟩ | ⟨rfl, -⟩ <;>
        · rcases member with _ | ⟨_, _ | ⟨_, member⟩⟩
          · exact .inl rfl
          · exact .inr rfl
          · cases member
    rcases listed with same | same
    · cases same
      exact select.before1
    · cases same
      rintro reg ⟨⟩
  refine (preserves_target_iff select.wf select.defined operands).trans ?_
  refine forall₂_congr fun value evaluates => ?_
  have nought : value (.val 0) = 0 := evaluates.constant 0
  have one : value (.val 1) = 1 := evaluates.constant 1
  have vanishes : BitVec.ofNat insn.size (value insn.src1) = BitVec.ofNat insn.size 0 ↔
      value insn.src1 % 2 ^ insn.size = 0 := by
    rw [ofNat_eq_iff, Nat.zero_mod]
  have sound : (0 < insn.size → (¬ value insn.src1 % 2 ^ insn.size = 0 ↔ ¬ value insn.src1 = 0)) ↔
      (0 < insn.size → value insn.src1 % 2 ^ insn.size = 0 → value insn.src1 = 0) := by
    refine imp_congr_right fun _ => not_iff_not.trans ⟨Iff.mp, fun here => ⟨here, ?_⟩⟩
    intro zero
    rw [zero, Nat.zero_mod]
  change _ ↔ (0 < insn.size → value insn.src1 % 2 ^ insn.size = 0 → value insn.src1 = 0)
  rw [← sound, ← vanishes]
  rcases pair with ⟨rfl, arm1, arm2⟩ | ⟨rfl, arm1, arm2⟩
  · have outcome : chosen insn value = if ¬ value insn.src1 = 0 then 1 else 0 := by
      unfold chosen
      rw [arm1, arm2, nought, one]
    rw [outcome, ← truth_mod_iff, decide_not, ← nought]
    rfl
  · have outcome : chosen insn value = if value insn.src1 = 0 then 1 else 0 := by
      unfold chosen
      rw [arm1, arm2, nought, one, ite_not]
    rw [outcome, not_iff_not, ← truth_mod_iff, ← nought]
    rfl

/-! ## Rules that edit a definition -/

/-- A register with one use has no other user. -/
theorem eq_of_oneUse {reg : Nat} (once : graph.oneUse reg = true) {use use' : Nat × Slot}
    (member : use ∈ graph.users reg) (member' : use' ∈ graph.users reg) : use' = use := by
  have short := of_decide_eq_true once
  rcases users : graph.users reg with _ | ⟨first, _ | ⟨second, rest⟩⟩
  · rw [users] at member
    cases member
  · rw [users] at member member'
    rw [List.mem_singleton.mp member, List.mem_singleton.mp member']
  · rw [users] at short
    exact absurd short (by simp only [List.length_cons]; omega)

/-- The condition is an instruction that only the select uses: it is not an arm. -/
theorem not_arm_of_oneUse (select : IsSelect graph number target insn) {reg : Nat}
    (cond : insn.src1 = .reg reg) (once : graph.oneUse reg = true) :
    (∀ use ∈ graph.users reg, use.1 = target) ∧ insn.src2 ≠ .reg reg ∧ insn.src3 ≠ .reg reg := by
  have used : ∀ slot, (slot, .reg reg) ∈ insn.operands → (target, slot) ∈ graph.users reg :=
    fun slot member => select.wf.used target insn select.defined slot reg member
  have first := used .src1 (cond ▸ select.member1)
  refine ⟨fun use member => ?_, fun arm => ?_, fun arm => ?_⟩
  · rw [eq_of_oneUse once first member]
  · cases eq_of_oneUse once first (used .src2 (arm ▸ select.member2))
  · cases eq_of_oneUse once first (used .src3 (arm ▸ select.member3))

theorem afterEdit_self (value : Pseudo → Nat) (reg : Nat) (newDef : Instruction) :
    afterEdit value reg newDef (.reg reg) =
      newDef.eval (value newDef.src1) (value newDef.src2) (value newDef.src3) :=
  update_self ..

theorem afterEdit_of_ne (value : Pseudo → Nat) {reg : Nat} (newDef : Instruction) {pseudo : Pseudo}
    (other : pseudo ≠ .reg reg) : afterEdit value reg newDef pseudo = value pseudo :=
  update_of_ne other ..

/-- A comparison is replaced by another one on the same operands. -/
theorem PairEdit.of_compare (select : IsSelect graph number target insn) {reg : Nat}
    {cmp : Instruction} (cond : insn.src1 = .reg reg) (defined : graph.defs reg = some cmp)
    (once : graph.oneUse reg = true) {opcode : Opcode} (arity : opcode.arity = cmp.opcode.arity)
    {new : Instruction} (operands : ∀ slot pseudo, (slot, pseudo) ∈ new.operands →
      Before number target pseudo) :
    PairEdit graph ((graph.setDef reg { cmp with opcode := opcode }).setDef target new)
      number target
      reg new { cmp with opcode := opcode } := by
  have before := select.before1 reg cond
  have different : reg ≠ target := by
    rintro rfl
    exact lt_irrefl _ before
  refine ⟨update_self .., ?_, ?_, ⟨?_, ?_⟩, before, (not_arm_of_oneUse select cond once).1,
    operands, ?_⟩
  · exact (update_of_ne different ..).trans (update_self ..)
  · intro other notTarget notReg
    exact (update_of_ne notTarget ..).trans (update_of_ne notReg ..)
  · rw [select.defined]
    nofun
  · rw [defined]
    nofun
  · intro slot pseudo member
    have member' : (slot, pseudo) ∈ cmp.operands := by
      unfold Instruction.operands at member ⊢
      rw [← arity]
      exact member
    exact before_operand select.wf defined member'

theorem negate_eval {cmp : Instruction}
    (opcode : cmp.opcode = .setLe ∨ cmp.opcode = .setLt ∨ cmp.opcode = .setBe ∨ cmp.opcode = .setB)
    (v1 v2 v3 : Nat) :
    { cmp with opcode := cmp.opcode.negate.getD cmp.opcode }.eval v1 v2 v3 = 0 ↔
      ¬ cmp.eval v1 v2 v3 = 0 := by
  unfold Instruction.eval
  rcases opcode with opcode | opcode | opcode | opcode <;>
    simp only [opcode, Opcode.negate, Option.getD_some, truth_eq_zero, BitVec.sle_eq_not_slt,
      BitVec.ule_eq_not_ult, Bool.not_eq_false, Bool.not_eq_true, Bool.not_eq_false']

theorem preserves_negate (select : IsSelect graph number target insn) {reg : Nat}
    {cmp : Instruction}
    (fits : (SelectRule.negate reg cmp).Matches graph insn) :
    Preserves graph target insn ((SelectRule.negate reg cmp).apply graph target insn) := by
  obtain ⟨opcode, cond, defined, once⟩ := fits
  have arity : (cmp.opcode.negate.getD cmp.opcode).arity = cmp.opcode.arity := by
    rcases opcode with opcode | opcode | opcode | opcode <;> rw [opcode] <;> rfl
  have operands : ∀ slot pseudo, (slot, pseudo) ∈ Instruction.operands
      { insn with src2 := insn.src3, src3 := insn.src2 } → Before number target pseudo := by
    intro slot pseudo member
    unfold Instruction.operands at member
    simp only [select.opcode] at member
    rcases member with _ | ⟨_, _ | ⟨_, _ | ⟨_, member⟩⟩⟩
    · exact select.before1
    · exact select.before3
    · exact select.before2
    · cases member
  refine ((PairEdit.of_compare select cond defined once arity operands).preserves_iff
    select.wf).mpr ?_
  intro value evaluates
  obtain ⟨-, arm2, arm3⟩ := not_arm_of_oneUse select cond once
  have old : value insn.src1 = cmp.eval (value cmp.src1) (value cmp.src2) (value cmp.src3) :=
    DefinesCond.value_eq ⟨reg, cond, defined⟩ evaluates
  have opposite := negate_eval opcode (value cmp.src1) (value cmp.src2) (value cmp.src3)
  rw [eval_sel (by exact select.opcode), Nat.mod_mod]
  unfold chosen
  simp only [cond, afterEdit_self, afterEdit_of_ne _ _ arm2, afterEdit_of_ne _ _ arm3]
  rw [← cond, old]
  by_cases zero : cmp.eval (value cmp.src1) (value cmp.src2) (value cmp.src3) = 0
  · rw [if_pos (mt opposite.mp (not_not.mpr zero)), if_neg (not_not.mpr zero)]
  · rw [if_neg (not_not.mpr (opposite.mpr zero)), if_pos zero]

/-- The two comparisons with zero differ at zero only. -/
theorem greater_eval {cmp : Instruction} (opcode : cmp.opcode = .setGt) (v1 v3 : Nat) :
    ({ cmp with opcode := .setGe }.eval v1 0 v3 = 0 ↔ cmp.eval v1 0 v3 = 0 ∧
      ¬ v1 % 2 ^ cmp.itype = 0) ∧
      (v1 % 2 ^ cmp.itype = 0 → cmp.eval v1 0 v3 = 0) := by
  unfold Instruction.eval
  rw [opcode]
  simp only [truth_eq_zero]
  have vanishes : BitVec.ofNat cmp.itype v1 = BitVec.ofNat cmp.itype 0 ↔
    v1 % 2 ^ cmp.itype = 0 := by
    rw [ofNat_eq_iff, Nat.zero_mod]
  constructor
  · rw [BitVec.sle_eq_slt_or_eq, Bool.or_eq_false_iff, beq_eq_false_iff_ne, ← vanishes]
    exact and_congr_right fun _ => not_congr eq_comm
  · intro zero
    rw [vanishes.mpr zero]
    exact decide_eq_false (lt_irrefl _)

theorem preserves_greater_iff (select : IsSelect graph number target insn) {reg : Nat}
    {cmp : Instruction} (fits : (SelectRule.greater reg cmp).Matches graph insn) :
    Preserves graph target insn ((SelectRule.greater reg cmp).apply graph target insn) ↔
      ∀ value, Evaluates graph.defs value → (SelectRule.greater reg cmp).Sound insn value := by
  obtain ⟨opcode, zero, cond, defined, once⟩ := fits
  have operands : ∀ slot pseudo, (slot, pseudo) ∈ insn.operands → Before number target pseudo :=
    fun slot pseudo member => before_operand select.wf select.defined member
  have arity : Opcode.setGe.arity = cmp.opcode.arity := by
    rw [opcode]
    rfl
  -- The select itself stays as it is.
  have unchanged : graph.setDef reg { cmp with opcode := .setGe } =
      (graph.setDef reg { cmp with opcode := .setGe }).setDef target insn := by
    have different : target ≠ reg := by
      rintro rfl
      exact lt_irrefl _ (select.before1 _ cond)
    unfold Graph.setDef
    simp only [Graph.mk.injEq, and_true]
    rw [← select.defined, ← update_of_ne different _ graph.defs, update_eq_self]
  change Preserves graph target insn
    ⟨graph.setDef reg { cmp with opcode := .setGe }, .reg target⟩ ↔ _
  rw [unchanged]
  refine ((PairEdit.of_compare select cond defined once arity operands).preserves_iff
    select.wf).trans ?_
  refine forall₂_congr fun value evaluates => ?_
  obtain ⟨-, arm2, arm3⟩ := not_arm_of_oneUse select cond once
  have old : value insn.src1 = cmp.eval (value cmp.src1) (value cmp.src2) (value cmp.src3) :=
    DefinesCond.value_eq ⟨reg, cond, defined⟩ evaluates
  have nought : value cmp.src2 = 0 := by
    rw [zero]
    exact evaluates.constant 0
  obtain ⟨new, atZero⟩ := greater_eval opcode (value cmp.src1) (value cmp.src3)
  rw [eval_sel select.opcode, Nat.mod_mod]
  unfold chosen
  simp only [cond, afterEdit_self, afterEdit_of_ne _ _ arm2, afterEdit_of_ne _ _ arm3]
  rw [← cond, old, nought]
  change _ ↔ (value cmp.src1 % 2 ^ cmp.itype = 0 → SameArms insn value)
  by_cases vanishes : value cmp.src1 % 2 ^ cmp.itype = 0
  · have now : ¬ { cmp with opcode := .setGe }.eval (value cmp.src1) 0 (value cmp.src3) = 0 :=
      fun same => (new.mp same).2 vanishes
    rw [if_pos now, if_neg (not_not.mpr (atZero vanishes))]
    exact ⟨fun same _ => same, fun same => same vanishes⟩
  · have same : { cmp with opcode := .setGe }.eval (value cmp.src1) 0 (value cmp.src3) = 0 ↔
        cmp.eval (value cmp.src1) 0 (value cmp.src3) = 0 :=
      new.trans (and_iff_left vanishes)
    simp only [ne_eq, same, vanishes, false_imp_iff]

section

variable (select : IsSelect graph number target insn)
include select

theorem preserves_selectSame_iff {inner : Instruction}
    (fits : (SelectRule.selectSame inner).Matches graph insn) :
    Preserves graph target insn ((SelectRule.selectSame inner).apply graph target insn) ↔
      ∀ value, Evaluates graph.defs value → (SelectRule.selectSame inner).Sound insn value := by
  obtain ⟨opcode, defines, zero, arm2, arm3⟩ := fits
  refine (preserves_replace_iff select.wf select.before1).trans ?_
  refine forall₂_congr fun value evaluates => ?_
  have cond : value insn.src1 = chosen inner value % 2 ^ inner.size := by
    rw [defines.value_eq evaluates, eval_sel opcode]
  have nought : value inner.src3 = 0 := by
    rw [zero]
    exact evaluates.constant 0
  change _ ↔ (value inner.src1 ≠ 0 → _ → _)
  by_cases outer : value inner.src1 = 0
  · rw [chosen_of_eq_zero outer, nought, Nat.zero_mod] at cond
    rw [chosen_of_eq_zero cond, cond, arm3, nought]
    exact ⟨fun _ taken => absurd outer taken, fun _ => rfl⟩
  · rw [chosen_of_ne_zero outer] at cond
    by_cases vanishes : value inner.src2 % 2 ^ inner.size = 0
    · rw [chosen_of_eq_zero (cond.trans vanishes), cond, vanishes, arm3, nought]
      exact ⟨fun _ _ nonzero => absurd rfl nonzero, fun _ => rfl⟩
    · have taken : value insn.src1 ≠ 0 := by
        rw [cond]
        exact vanishes
      rw [chosen_of_ne_zero taken, cond, arm2]
      exact ⟨fun same _ _ => same, fun same => same outer vanishes⟩

/-- The select has the condition of the inner one, with the arms in some order. -/
theorem preserves_inner_iff {inner : Instruction} (opcode : inner.opcode = .sel)
    (defines : DefinesCond graph insn inner) {arm1 arm2 : Pseudo}
    (before1 : Before number target arm1) (before2 : Before number target arm2) :
    Preserves graph target insn
        ⟨graph.setDef target { insn with src1 := inner.src1, src2 := arm1, src3 := arm2 },
          .reg target⟩ ↔
      ∀ value, Evaluates graph.defs value →
        (if value inner.src1 ≠ 0 then value arm1 else value arm2) % 2 ^ insn.size =
          (if chosen inner value % 2 ^ inner.size ≠ 0 then value insn.src2 else value insn.src3) %
            2 ^ insn.size := by
  have operands : ∀ slot pseudo, (slot, pseudo) ∈ Instruction.operands
      { insn with src1 := inner.src1, src2 := arm1, src3 := arm2 } →
        Before number target pseudo := by
    intro slot pseudo member
    unfold Instruction.operands at member
    simp only [select.opcode] at member
    rcases member with _ | ⟨_, _ | ⟨_, _ | ⟨_, member⟩⟩⟩
    · obtain ⟨reg, cond, defined⟩ := defines
      have first : (.src1, inner.src1) ∈ inner.operands := by
        unfold Instruction.operands
        rw [opcode]
        exact .head _
      intro used same
      exact (before_operand select.wf defined first used same).trans (select.before1 reg cond)
    · exact before1
    · exact before2
    · cases member
  refine (preserves_target_iff select.wf select.defined operands).trans ?_
  refine forall₂_congr fun value evaluates => ?_
  have cond : value insn.src1 = chosen inner value % 2 ^ inner.size := by
    rw [defines.value_eq evaluates, eval_sel opcode]
  rw [eval_sel (by exact select.opcode), Nat.mod_mod, ← cond]
  rfl

theorem preserves_selectCond_iff {inner : Instruction}
    (fits : (SelectRule.selectCond inner).Matches graph insn) :
    Preserves graph target insn ((SelectRule.selectCond inner).apply graph target insn) ↔
      ∀ value, Evaluates graph.defs value → (SelectRule.selectCond inner).Sound insn value := by
  obtain ⟨opcode, defines, zero⟩ := fits
  refine (preserves_inner_iff select opcode defines select.before2 select.before3).trans ?_
  refine forall₂_congr fun value evaluates => ?_
  have nought : value inner.src3 = 0 := by
    rw [zero]
    exact evaluates.constant 0
  change _ ↔ (value inner.src1 ≠ 0 → _ → SameArms insn value)
  by_cases outer : value inner.src1 = 0
  · rw [chosen_of_eq_zero outer, nought, Nat.zero_mod, if_neg (not_not.mpr outer),
      if_neg (not_not.mpr rfl)]
    exact ⟨fun _ taken => absurd outer taken, fun _ => rfl⟩
  · rw [chosen_of_ne_zero outer, if_pos outer]
    by_cases vanishes : value inner.src2 % 2 ^ inner.size = 0
    · rw [if_neg (not_not.mpr vanishes)]
      exact ⟨fun same _ _ => same, fun same => same outer vanishes⟩
    · rw [if_pos vanishes]
      exact ⟨fun _ _ here => absurd here vanishes, fun _ => rfl⟩

theorem preserves_selectSwap_iff {inner : Instruction}
    (fits : (SelectRule.selectSwap inner).Matches graph insn) :
    Preserves graph target insn ((SelectRule.selectSwap inner).apply graph target insn) ↔
      ∀ value, Evaluates graph.defs value → (SelectRule.selectSwap inner).Sound insn value := by
  obtain ⟨opcode, defines, zero⟩ := fits
  refine (preserves_inner_iff select opcode defines select.before3 select.before2).trans ?_
  refine forall₂_congr fun value evaluates => ?_
  have nought : value inner.src2 = 0 := by
    rw [zero]
    exact evaluates.constant 0
  change _ ↔ (value inner.src1 = 0 → _ → SameArms insn value)
  by_cases outer : value inner.src1 = 0
  · rw [chosen_of_eq_zero outer, if_neg (not_not.mpr outer)]
    by_cases vanishes : value inner.src3 % 2 ^ inner.size = 0
    · rw [if_neg (not_not.mpr vanishes)]
      exact ⟨fun same _ _ => same, fun same => same outer vanishes⟩
    · rw [if_pos vanishes]
      exact ⟨fun _ _ here => absurd here vanishes, fun _ => rfl⟩
  · rw [chosen_of_ne_zero outer, nought, Nat.zero_mod, if_pos outer, if_neg (not_not.mpr rfl)]
    exact ⟨fun _ here => absurd here outer, fun _ => rfl⟩

theorem preserves_selectTrue_iff {inner : Instruction}
    (fits : (SelectRule.selectTrue inner).Matches graph insn) :
    Preserves graph target insn ((SelectRule.selectTrue inner).apply graph target insn) ↔
      ∀ value, Evaluates graph.defs value → (SelectRule.selectTrue inner).Sound insn value := by
  obtain ⟨opcode, defines⟩ := fits
  refine (preserves_replace_iff select.wf select.before2).trans ?_
  refine forall₂_congr fun value evaluates => ?_
  have cond : value insn.src1 = chosen inner value % 2 ^ inner.size := by
    rw [defines.value_eq evaluates, eval_sel opcode]
  change _ ↔ (chosen inner value % _ = 0 → SameArms insn value)
  rw [← cond]
  by_cases zero : value insn.src1 = 0
  · rw [chosen_of_eq_zero zero]
    exact ⟨fun same _ => same, fun same => same zero⟩
  · rw [chosen_of_ne_zero zero]
    exact ⟨fun _ here => absurd here zero, fun _ => rfl⟩

end

end Rules

end SmatchFormal.Ir
