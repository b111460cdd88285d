import SmatchFormal.Ir.Select

/-!
# The rules of a select

What is known about a select and its operands when `simplify_select` uses one
of its rules.
-/

namespace SmatchFormal.Ir

def DefinesCond (graph : Graph) (insn : Instruction) (inner : Instruction) : Prop :=
  ∃ reg, insn.src1 = .reg reg ∧ graph.defs reg = some inner

/-- The instruction of an arm combines the other arm with `z`, and can be moved. -/
structure Factors (graph : Graph) (cond arm other : Pseudo) (reg : Nat) (op : Instruction)
    (z : Pseudo) : Prop where
  arm : arm = .reg reg
  defined : graph.defs reg = some op
  opcode : op.opcode = .add ∨ op.opcode = .or ∨ op.opcode = .xor
  moves : graph.canMoveTo cond reg = true
  sides : op.src1 = other ∧ op.src2 = z ∨ op.src2 = other ∧ op.src1 = z

def SelectRule.Matches (graph : Graph) (insn : Instruction) : SelectRule → Prop
  | .constant value => insn.src1 = .val value
  | .same => insn.src2 = insn.src3
  | .zeroOne opcode zero => zero = .val 0 ∧
      (opcode = .setNe ∧ insn.src2 = .val 1 ∧ insn.src3 = .val 0 ∨
        opcode = .setEq ∧ insn.src2 = .val 0 ∧ insn.src3 = .val 1)
  | .selfFalse => insn.src1 = insn.src3 ∧ insn.src2 = .val 0
  | .selfTrue => insn.src1 = insn.src2 ∧ insn.src3 = .val 0
  | .equal cmp => cmp.opcode = .setEq ∧ DefinesCond graph insn cmp ∧ armsOf insn cmp = true
  | .notEqual cmp => cmp.opcode = .setNe ∧ DefinesCond graph insn cmp ∧ armsOf insn cmp = true
  | .negate reg cmp =>
    (cmp.opcode = .setLe ∨ cmp.opcode = .setLt ∨ cmp.opcode = .setBe ∨ cmp.opcode = .setB) ∧
      insn.src1 = .reg reg ∧ graph.defs reg = some cmp ∧ graph.oneUse reg = true
  | .greater reg cmp => cmp.opcode = .setGt ∧ cmp.src2 = .val 0 ∧
      insn.src1 = .reg reg ∧ graph.defs reg = some cmp ∧ graph.oneUse reg = true
  | .selectSame inner => inner.opcode = .sel ∧ DefinesCond graph insn inner ∧
      inner.src3 = .val 0 ∧ insn.src2 = inner.src2 ∧ insn.src3 = inner.src3
  | .selectCond inner => inner.opcode = .sel ∧ DefinesCond graph insn inner ∧ inner.src3 = .val 0
  | .selectSwap inner => inner.opcode = .sel ∧ DefinesCond graph insn inner ∧ inner.src2 = .val 0
  | .selectTrue inner => inner.opcode = .sel ∧ DefinesCond graph insn inner
  | .shift inner a b => (inner.opcode = .and ∨ inner.opcode = .sel) ∧ DefinesCond graph insn inner ∧
      isPowerOf2 a = true ∧ isPowerOf2 b = true ∧ inner.src2 = .val a ∧ insn.src2 = .val b ∧
      insn.src3 = .val 0 ∧ insn.size = inner.size
  | .factorTrue reg op z => Factors graph insn.src1 insn.src2 insn.src3 reg op z
  | .factorFalse reg op z => Factors graph insn.src1 insn.src3 insn.src2 reg op z
  | .none => True

section Matches

variable {graph : Graph} {insn : Instruction} {reg : Nat} {inner : Instruction}

theorem eq_val_of_isZero {pseudo : Pseudo} (zero : pseudo.isZero = true) : pseudo = .val 0 := by
  cases pseudo with
  | val value => exact congrArg _ (beq_iff_eq.mp zero)
  | reg nr => cases zero
  | arg nr => cases zero

theorem isPow2_eq_some {pseudo : Pseudo} {value : BitVec 64} (found : isPow2 pseudo = some value) :
    pseudo = .val value ∧ isPowerOf2 value = true := by
  cases pseudo with
  | val value' =>
    obtain ⟨power, same⟩ := Option.ite_none_right_eq_some.mp found
    cases same
    exact ⟨rfl, power⟩
  | reg nr => cases found
  | arg nr => cases found

theorem def?_eq_some {pseudo : Pseudo} (found : graph.def? pseudo = some (reg, inner)) :
    pseudo = .reg reg ∧ graph.defs reg = some inner := by
  cases pseudo with
  | val value => cases found
  | reg nr =>
    obtain ⟨def_, defined, same⟩ := Option.map_eq_some_iff.mp found
    cases same
    exact ⟨rfl, defined⟩
  | arg nr => cases found

theorem zero_or_one_of_or {val1 val2 : BitVec 64} (union : val1 ||| val2 = 1) :
    val1 = 0 ∨ val1 = 1 := by
  have numbers : val1.toNat ||| val2.toNat = 1 := congrArg BitVec.toNat union
  have small : val1.toNat ≤ 1 := numbers ▸ Nat.left_le_or
  rcases Nat.le_one_iff_eq_zero_or_eq_one.mp small with zero | one
  · exact .inl (BitVec.eq_of_toNat_eq zero)
  · exact .inr (BitVec.eq_of_toNat_eq one)

theorem matches_zeroOneRule {rule : SelectRule} (different : insn.src2 ≠ insn.src3)
    (found : zeroOneRule insn.src2 insn.src3 = some rule) : rule.Matches graph insn := by
  cases arm1 : insn.src2 with
  | reg nr | arg nr =>
    rw [arm1] at found
    cases found
  | val val1 =>
    cases arm2 : insn.src3 with
    | reg nr | arg nr =>
      rw [arm1, arm2] at found
      cases found
    | val val2 =>
      rw [arm1, arm2] at found different
      obtain ⟨union, found⟩ := Option.ite_none_right_eq_some.mp found
      have swapped : val2 ||| val1 = 1 := (BitVec.or_comm val2 val1).trans union
      rcases zero_or_one_of_or union with rfl | rfl
      · rw [if_neg (not_not.mpr rfl)] at found
        cases found
        rcases zero_or_one_of_or swapped with rfl | rfl
        · exact absurd rfl different
        · exact ⟨rfl, .inr ⟨rfl, arm1, arm2⟩⟩
      · rw [if_pos (by decide)] at found
        cases found
        rcases zero_or_one_of_or swapped with rfl | rfl
        · exact ⟨rfl, .inl ⟨rfl, arm1, arm2⟩⟩
        · exact absurd rfl different

theorem matches_shiftRule {rule : SelectRule} (opcode : inner.opcode = .and ∨ inner.opcode = .sel)
    (cond : DefinesCond graph insn inner) (found : shiftRule graph insn reg inner = some rule) :
    rule.Matches graph insn := by
  unfold shiftRule at found
  cases powA : isPow2 inner.src2 with
  | none =>
    rw [powA] at found
    cases found
  | some a =>
    cases powB : isPow2 insn.src2 with
    | none =>
      rw [powA, powB] at found
      cases found
    | some b =>
      rw [powA, powB] at found
      obtain ⟨tests, found⟩ := Option.ite_none_right_eq_some.mp found
      cases found
      rw [Bool.and_eq_true, Bool.and_eq_true, beq_iff_eq] at tests
      obtain ⟨srcA, powA⟩ := isPow2_eq_some powA
      obtain ⟨srcB, powB⟩ := isPow2_eq_some powB
      exact ⟨opcode, cond, powA, powB, srcA, srcB, eq_val_of_isZero tests.1.1, tests.1.2⟩

theorem matches_condRule_sel {rule : SelectRule} (defines : DefinesCond graph insn inner)
    (opcode : inner.opcode = .sel) (found : condRule graph insn reg inner = some rule) :
    rule.Matches graph insn := by
  simp only [condRule, opcode] at found
  split at found
  · rename_i val2 val3 src2 src3
    by_cases zero3 : val3 = 0
    · rw [zero3] at src3
      rw [if_pos zero3] at found
      by_cases arms : insn.src2 = inner.src2 ∧ insn.src3 = inner.src3
      · rw [if_pos arms] at found
        cases found
        exact ⟨opcode, defines, src3, arms.1, arms.2⟩
      · rw [if_neg arms] at found
        cases found
        exact ⟨opcode, defines, src3⟩
    · rw [if_neg zero3] at found
      by_cases zero2 : val2 = 0
      · rw [zero2] at src2
        rw [if_pos zero2] at found
        cases found
        exact ⟨opcode, defines, src2⟩
      · rw [if_neg zero2] at found
        cases found
        exact ⟨opcode, defines⟩
  · exact matches_shiftRule (.inr opcode) defines found

theorem matches_condRule {rule : SelectRule} (cond : insn.src1 = .reg reg)
    (defined : graph.defs reg = some inner) (found : condRule graph insn reg inner = some rule) :
    rule.Matches graph insn := by
  have defines : DefinesCond graph insn inner := ⟨reg, cond, defined⟩
  have test := found
  simp only [condRule] at test
  cases opcode : inner.opcode with
  | setEq | setNe =>
    rw [opcode] at test
    obtain ⟨arms, same⟩ := Option.ite_none_right_eq_some.mp test
    cases same
    exact ⟨opcode, defines, arms⟩
  | setLe =>
    rw [opcode] at test
    obtain ⟨once, same⟩ := Option.ite_none_right_eq_some.mp test
    cases same
    exact ⟨.inl opcode, cond, defined, once⟩
  | setLt =>
    rw [opcode] at test
    obtain ⟨once, same⟩ := Option.ite_none_right_eq_some.mp test
    cases same
    exact ⟨.inr (.inl opcode), cond, defined, once⟩
  | setBe =>
    rw [opcode] at test
    obtain ⟨once, same⟩ := Option.ite_none_right_eq_some.mp test
    cases same
    exact ⟨.inr (.inr (.inl opcode)), cond, defined, once⟩
  | setB =>
    rw [opcode] at test
    obtain ⟨once, same⟩ := Option.ite_none_right_eq_some.mp test
    cases same
    exact ⟨.inr (.inr (.inr opcode)), cond, defined, once⟩
  | setGt =>
    rw [opcode] at test
    obtain ⟨tests, same⟩ := Option.ite_none_right_eq_some.mp test
    cases same
    rw [Bool.and_eq_true, Bool.and_eq_true] at tests
    exact ⟨opcode, eq_val_of_isZero tests.1.2, cond, defined, tests.1.1⟩
  | sel => exact matches_condRule_sel defines opcode found
  | and =>
    rw [opcode] at test
    exact matches_shiftRule (.inl opcode) defines test
  | _ =>
    rw [opcode] at test
    cases test

theorem matches_factorRule {cond arm other : Pseudo} {op : Instruction} {z : Pseudo}
    (found : factorRule graph cond arm other = some (reg, op, z)) :
    Factors graph cond arm other reg op z := by
  unfold factorRule at found
  split at found
  · rename_i reg' op' definition
    obtain ⟨register, defined⟩ := def?_eq_some definition
    have sides : ∀ {found' : Option (Nat × Instruction × Pseudo)},
        found' = (if op'.src1 = other ∧ graph.canMoveTo cond reg' = true then
          some (reg', op', op'.src2)
          else if op'.src2 = other ∧ graph.canMoveTo cond reg' = true then
            some (reg', op', op'.src1)
          else none) → found' = some (reg, op, z) →
        (op'.opcode = .add ∨ op'.opcode = .or ∨ op'.opcode = .xor) →
          Factors graph cond arm other reg op z := by
      rintro _ rfl same opcode
      split at same
      · rename_i tests
        cases same
        exact ⟨register, defined, opcode, tests.2, .inl ⟨tests.1, rfl⟩⟩
      · obtain ⟨tests, same⟩ := Option.ite_none_right_eq_some.mp same
        cases same
        exact ⟨register, defined, opcode, tests.2, .inr ⟨tests.1, rfl⟩⟩
    split at found
    · rename_i opcode
      exact sides rfl found (.inl opcode)
    · rename_i opcode
      exact sides rfl found (.inr (.inl opcode))
    · rename_i opcode
      exact sides rfl found (.inr (.inr opcode))
    · cases found
  · cases found

theorem matches_armRule (graph : Graph) (insn : Instruction) :
    (armRule graph insn).Matches graph insn := by
  unfold armRule
  split
  · rename_i found
    exact matches_factorRule found
  · split
    · rename_i found
      exact matches_factorRule found
    · trivial

theorem matches_selectRule (graph : Graph) (insn : Instruction) :
    (selectRule graph insn).Matches graph insn := by
  unfold selectRule
  split
  · rename_i value constant
    exact constant
  · by_cases same : insn.src2 = insn.src3
    · rw [if_pos same]
      exact same
    · rw [if_neg same]
      split
      · rename_i found
        exact matches_zeroOneRule same found
      · by_cases selfFalse : insn.src1 = insn.src3 ∧ insn.src2.isZero = true
        · rw [if_pos selfFalse]
          exact ⟨selfFalse.1, eq_val_of_isZero selfFalse.2⟩
        · rw [if_neg selfFalse]
          by_cases selfTrue : insn.src1 = insn.src2 ∧ insn.src3.isZero = true
          · rw [if_pos selfTrue]
            exact ⟨selfTrue.1, eq_val_of_isZero selfTrue.2⟩
          · rw [if_neg selfTrue]
            split
            · rename_i reg inner definition
              obtain ⟨cond, defined⟩ := def?_eq_some definition
              cases found : condRule graph insn reg inner with
              | none => exact matches_armRule graph insn
              | some rule => exact matches_condRule cond defined found
            · exact matches_armRule graph insn

end Matches

end SmatchFormal.Ir
