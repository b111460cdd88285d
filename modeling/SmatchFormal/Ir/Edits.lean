import SmatchFormal.Ir.Basic

/-!
# Edits of linearized code

A simplification replaces the target of an instruction by another pseudo, or it edits
the instruction and sometimes the definition of one of its operands.  Whether that keeps
the value of the target is a question about the values of the operands.
-/

namespace SmatchFormal.Ir

open List

/-- The code after the call, and the pseudo that the users of the target then use. -/
structure Simplified where
  graph : Graph
  value : Pseudo

/-- Only definitions that the target alone uses are edited, and for all values of the leaves
the target then has the value that is asked for, at its width. -/
def KeepsAs (graph : Graph) (target size : Nat) (wanted : (Pseudo → Nat) → Nat)
    (result : Simplified) : Prop :=
  (∀ reg, reg ≠ target → result.graph.defs reg ≠ graph.defs reg →
    ∀ use ∈ graph.users reg, use.1 = target) ∧
  ∀ value, Evaluates graph.defs value → ∃ value', Evaluates result.graph.defs value' ∧
    SameLeaves graph.defs value value' ∧ value' result.value % 2 ^ size = wanted value % 2 ^ size

section Edits

variable {graph : Graph} {number : Nat → Nat} {target : Nat} {insn : Instruction}
  {size : Nat} {value value' : Pseudo → Nat} {wanted : (Pseudo → Nat) → Nat}

def Before (number : Nat → Nat) (target : Nat) (pseudo : Pseudo) : Prop :=
  ∀ reg, pseudo = .reg reg → number reg < number target

theorem before_operand (wf : graph.WellFormed number) (defined : graph.defs target = some insn)
    {slot : Slot} {pseudo : Pseudo} (member : (slot, pseudo) ∈ insn.operands) :
    Before number target pseudo := by
  rintro reg rfl
  exact wf.ordered target insn defined slot reg member

theorem agree_of_registers (evaluates : Evaluates graph.defs value)
    {defs' : Nat → Option Instruction} (evaluates' : Evaluates defs' value')
    (leaves : SameLeaves graph.defs value value') {pseudo : Pseudo}
    (registers : ∀ reg, pseudo = .reg reg → value' (.reg reg) = value (.reg reg)) :
    value' pseudo = value pseudo := by
  cases pseudo with
  | val n => rw [evaluates.constant, evaluates'.constant]
  | arg nr => exact leaves.1 nr
  | reg reg => exact registers reg rfl

/-- An edit of the target alone does not change what comes before it. -/
theorem agree_of_target (wf : graph.WellFormed number) (evaluates : Evaluates graph.defs value)
    {defs' : Nat → Option Instruction} (evaluates' : Evaluates defs' value')
    (leaves : SameLeaves graph.defs value value')
    (kept : ∀ reg, reg ≠ target → defs' reg = graph.defs reg) {pseudo : Pseudo}
    (before : Before number target pseudo) : value' pseudo = value pseudo := by
  refine agree_of_registers evaluates evaluates' leaves ?_
  intro reg same
  have less := before reg same
  refine Evaluates.agree wf.ordered evaluates evaluates' leaves target target
    (fun reg other _ => kept reg other) ?_ less ?_
  · intro reg insn defined slot member
    exact (wf.ordered reg insn defined slot target member).le
  · rintro rfl
    exact lt_irrefl _ less

theorem SameLeaves.of_edits {defs defs' : Nat → Option Instruction}
    (leaves : SameLeaves defs' value value')
    (kept : ∀ reg, defs reg = none → defs' reg = none) : SameLeaves defs value value' :=
  ⟨leaves.1, fun reg undefined => leaves.2 reg (kept reg undefined)⟩

theorem keepsAs_replace_iff (wf : graph.WellFormed number) {pseudo : Pseudo}
    (before : Before number target pseudo) :
    KeepsAs graph target size wanted ⟨graph, pseudo⟩ ↔
      ∀ value, Evaluates graph.defs value →
        value pseudo % 2 ^ size = wanted value % 2 ^ size := by
  constructor
  · rintro ⟨-, keeps⟩ value evaluates
    obtain ⟨value', evaluates', leaves, same⟩ := keeps value evaluates
    rw [agree_of_target wf evaluates evaluates' leaves (fun _ _ => rfl) before] at same
    exact same
  · intro same
    refine ⟨fun reg _ changed => absurd rfl changed, fun value evaluates => ?_⟩
    exact ⟨value, evaluates, ⟨fun _ => rfl, fun _ _ => rfl⟩, same value evaluates⟩

/-- The instruction of the target is replaced by another one. -/
theorem keepsAs_target_iff (wf : graph.WellFormed number) (defined : graph.defs target = some insn)
    {new : Instruction} (before : ∀ slot pseudo, (slot, pseudo) ∈ new.operands →
      Before number target pseudo) :
    KeepsAs graph target size wanted ⟨graph.setDef target new, .reg target⟩ ↔
      ∀ value, Evaluates graph.defs value →
        new.eval (value new.src1) (value new.src2) (value new.src3) % 2 ^ size =
          wanted value % 2 ^ size := by
  have kept : ∀ reg, reg ≠ target → (graph.setDef target new).defs reg = graph.defs reg :=
    fun reg other => Function.update_of_ne other ..
  have result : ∀ {value value'}, Evaluates graph.defs value →
      Evaluates (graph.setDef target new).defs value' → SameLeaves graph.defs value value' →
      value' (.reg target) = new.eval (value new.src1) (value new.src2) (value new.src3) := by
    intro value value' evaluates evaluates' leaves
    rw [evaluates'.defined target new (Function.update_self ..)]
    exact new.eval_congr fun slot pseudo member =>
      agree_of_target wf evaluates evaluates' leaves kept (before slot pseudo member)
  constructor
  · rintro ⟨-, keeps⟩ value evaluates
    obtain ⟨value', evaluates', leaves, same⟩ := keeps value evaluates
    rw [← result evaluates evaluates' leaves]
    exact same
  · intro same
    refine ⟨fun reg other changed => absurd (kept reg other) changed, fun value evaluates => ?_⟩
    have ordered : Ordered number (graph.setDef target new).defs := by
      intro reg insn' defined' slot used member
      by_cases other : reg = target
      · subst other
        cases (Function.update_self ..).symm.trans defined'
        exact before slot _ member used rfl
      · exact wf.ordered reg insn' ((kept reg other).symm.trans defined') slot used member
    obtain ⟨value', evaluates', leaves⟩ := ordered.exists_evaluates value
    have leaves : SameLeaves graph.defs value value' := by
      refine leaves.of_edits fun reg undefined => (kept reg ?_).trans undefined
      rintro rfl
      rw [defined] at undefined
      cases undefined
    refine ⟨value', evaluates', leaves, ?_⟩
    change value' (.reg target) % _ = _
    rw [result evaluates evaluates' leaves]
    exact same value evaluates

def afterEdit (value : Pseudo → Nat) (reg : Nat) (newDef : Instruction) : Pseudo → Nat :=
  Function.update value (.reg reg)
    (newDef.eval (value newDef.src1) (value newDef.src2) (value newDef.src3))

/-- An instruction that only the target uses is edited with it, and may from then on run
right before the target. -/
structure MovedEdit (graph graph' : Graph) (number : Nat → Nat) (target reg : Nat)
    (new newDef : Instruction) : Prop where
  outer : graph'.defs target = some new
  inner : graph'.defs reg = some newDef
  kept : ∀ other, other ≠ target → other ≠ reg → graph'.defs other = graph.defs other
  defined : graph.defs target ≠ none ∧ graph.defs reg ≠ none
  before : number reg < number target
  alone : ∀ use ∈ graph.users reg, use.1 = target
  operands : ∀ slot pseudo, (slot, pseudo) ∈ new.operands → Before number target pseudo
  operandsDef : ∀ slot pseudo, (slot, pseudo) ∈ newDef.operands →
    Before number target pseudo ∧ pseudo ≠ .reg reg

def movedNumber (number : Nat → Nat) (target reg : Nat) (other : Nat) : Nat :=
  if other = reg then 2 * number target - 1 else 2 * number other

namespace MovedEdit

variable {graph' : Graph} {reg : Nat} {new newDef : Instruction}

section

variable (edit : MovedEdit graph graph' number target reg new newDef) (wf : graph.WellFormed number)
include edit wf

theorem ordered : Ordered (movedNumber number target reg) graph'.defs := by
  have before := edit.before
  have distinct : target ≠ reg := by
    rintro rfl
    exact lt_irrefl _ before
  intro other insn defined slot used member
  unfold movedNumber
  by_cases atReg : other = reg
  · subst atReg
    cases edit.inner.symm.trans defined
    obtain ⟨less, free⟩ := edit.operandsDef slot _ member
    have less := less used rfl
    rw [if_pos rfl, if_neg fun same => free (congrArg _ same)]
    omega
  · rw [if_neg atReg]
    by_cases atTarget : other = target
    · subst atTarget
      cases edit.outer.symm.trans defined
      have less := edit.operands slot _ member used rfl
      split <;> omega
    · have original := (edit.kept other atTarget atReg).symm.trans defined
      have less := wf.ordered other insn original slot used member
      have free : used ≠ reg := by
        rintro rfl
        exact atTarget (edit.alone _ (wf.used other insn original slot used member))
      rw [if_neg free]
      omega

section

variable (evaluates : Evaluates graph.defs value) (evaluates' : Evaluates graph'.defs value')
  (leaves : SameLeaves graph.defs value value')
include evaluates evaluates' leaves

/-- What comes before the target keeps its value, apart from the edited definition. -/
theorem agree {pseudo : Pseudo} (before : Before number target pseudo) (other : pseudo ≠ .reg reg) :
    value' pseudo = value pseudo := by
  refine agree_of_registers evaluates evaluates' leaves ?_
  rintro reg' rfl
  refine Evaluates.agree wf.ordered evaluates evaluates' leaves target reg edit.kept ?_
    (before reg' rfl) fun same => other (congrArg _ same)
  intro user insn defined slot member
  have use := edit.alone _ (wf.used user insn defined slot reg member)
  exact (congrArg number use).ge

theorem value_eq :
    value' (.reg target) =
      new.eval (afterEdit value reg newDef new.src1) (afterEdit value reg newDef new.src2)
        (afterEdit value reg newDef new.src3) := by
  rw [evaluates'.defined target new edit.outer]
  refine new.eval_congr fun slot pseudo member => ?_
  unfold afterEdit
  by_cases same : pseudo = .reg reg
  · rw [same, Function.update_self, evaluates'.defined reg newDef edit.inner]
    refine newDef.eval_congr fun slot operand member => ?_
    obtain ⟨less, free⟩ := edit.operandsDef slot operand member
    exact edit.agree wf evaluates evaluates' leaves less free
  · rw [Function.update_of_ne same]
    exact edit.agree wf evaluates evaluates' leaves (edit.operands slot pseudo member) same

end

theorem keepsAs_iff :
    KeepsAs graph target size wanted ⟨graph', .reg target⟩ ↔
      ∀ value, Evaluates graph.defs value →
        new.eval (afterEdit value reg newDef new.src1) (afterEdit value reg newDef new.src2)
            (afterEdit value reg newDef new.src3) % 2 ^ size = wanted value % 2 ^ size := by
  constructor
  · rintro ⟨-, keeps⟩ value evaluates
    obtain ⟨value', evaluates', leaves, same⟩ := keeps value evaluates
    rw [← edit.value_eq wf evaluates evaluates' leaves]
    exact same
  · intro same
    constructor
    · intro other notTarget changed
      by_cases atReg : other = reg
      · subst atReg
        exact edit.alone
      · exact absurd (edit.kept other notTarget atReg) changed
    · intro value evaluates
      obtain ⟨value', evaluates', leaves⟩ := (edit.ordered wf).exists_evaluates value
      have leaves : SameLeaves graph.defs value value' := by
        refine leaves.of_edits fun other undefined => (edit.kept other ?_ ?_).trans undefined
        · rintro rfl
          exact edit.defined.1 undefined
        · rintro rfl
          exact edit.defined.2 undefined
      refine ⟨value', evaluates', leaves, ?_⟩
      change value' (.reg target) % _ = _
      rw [edit.value_eq wf evaluates evaluates' leaves]
      exact same value evaluates

end

end MovedEdit

/-- An instruction that only the target uses is edited with it, in its place. -/
structure PairEdit (graph graph' : Graph) (number : Nat → Nat) (target reg : Nat)
    (new newDef : Instruction) : Prop where
  outer : graph'.defs target = some new
  inner : graph'.defs reg = some newDef
  kept : ∀ other, other ≠ target → other ≠ reg → graph'.defs other = graph.defs other
  defined : graph.defs target ≠ none ∧ graph.defs reg ≠ none
  before : number reg < number target
  alone : ∀ use ∈ graph.users reg, use.1 = target
  operands : ∀ slot pseudo, (slot, pseudo) ∈ new.operands → Before number target pseudo
  operandsDef : ∀ slot pseudo, (slot, pseudo) ∈ newDef.operands → Before number reg pseudo

theorem PairEdit.moved {graph' : Graph} {reg : Nat} {new newDef : Instruction}
    (edit : PairEdit graph graph' number target reg new newDef) :
    MovedEdit graph graph' number target reg new newDef where
  outer := edit.outer
  inner := edit.inner
  kept := edit.kept
  defined := edit.defined
  before := edit.before
  alone := edit.alone
  operands := edit.operands
  operandsDef := by
    intro slot pseudo member
    have less := edit.operandsDef slot pseudo member
    refine ⟨fun used same => (less used same).trans edit.before, ?_⟩
    intro same
    exact lt_irrefl _ (less reg same)

end Edits

/-! ## Straight-line code -/

def straightLine (code : List Instruction) : Graph where
  defs reg := code[reg]?
  users reg := (List.range code.length).flatMap fun user =>
    (code[user]?.toList.flatMap Instruction.operands).filterMap fun operand =>
      if operand.2 = .reg reg then some (user, operand.1) else none
  bb _ := 0
  insns _ := List.range code.length
  dominates _ _ := false

def Pseudo.isBelow (user : Nat) : Pseudo → Bool
  | .reg nr => decide (nr < user)
  | _ => true

def InOrder (code : List Instruction) : Bool :=
  (List.range code.length).all fun user =>
    (code[user]?.toList.flatMap Instruction.operands).all fun operand => operand.2.isBelow user

theorem lt_of_insnBefore {start count x y : Nat} (different : x ≠ y) (lower : start ≤ y)
    (before : insnBefore (List.range' start count) x y = true) : x < y := by
  induction count generalizing start with
  | zero => cases before
  | succ count ih =>
    rw [List.range'_succ] at before
    unfold insnBefore at before
    by_cases first : start = x
    · omega
    · rw [if_neg first] at before
      by_cases second : start = y
      · rw [if_pos second] at before
        cases before
      · rw [if_neg second] at before
        exact ih (by omega) before

theorem wellFormed_straightLine {code : List Instruction} (order : InOrder code = true) :
    (straightLine code).WellFormed id where
  ordered := by
    intro reg insn defined slot used member
    have defined : code[reg]? = some insn := defined
    obtain ⟨inside, -⟩ := List.getElem?_eq_some_iff.mp defined
    have below := all_eq_true.mp order reg (mem_range.mpr inside)
    rw [defined] at below
    have listed : (slot, .reg used) ∈ (some insn).toList.flatMap Instruction.operands :=
      mem_flatMap.mpr ⟨insn, mem_singleton_self insn, member⟩
    exact of_decide_eq_true (all_eq_true.mp below _ listed)
  used := by
    intro reg insn defined slot used member
    have defined : code[reg]? = some insn := defined
    obtain ⟨inside, -⟩ := List.getElem?_eq_some_iff.mp defined
    refine mem_flatMap.mpr ⟨reg, mem_range.mpr inside, ?_⟩
    refine mem_filterMap.mpr ⟨(slot, .reg used), ?_, if_pos rfl⟩
    rw [defined]
    exact mem_flatMap.mpr ⟨insn, mem_singleton_self insn, member⟩
  before := by
    intro x y different before
    have before : insnBefore (List.range code.length) x y = true := before
    rw [range_eq_range'] at before
    exact lt_of_insnBefore different (Nat.zero_le y) before

end SmatchFormal.Ir
