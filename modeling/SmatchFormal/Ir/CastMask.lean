import SmatchFormal.Ir.Cast
import SmatchFormal.Ir.CompareSound

/-!
# Parts of an `OR` that a mask removes

Below a truncation, or below a shift under one, only some bits of an `OR` are read.
`simplify_mask_or` may change the others, as long as nothing else uses what it edits.
-/

namespace SmatchFormal.Ir

open Function

/-! ## What a cast has to keep -/

inductive Graph.OnlyFor (graph : Graph) (target : Nat) : Nat → Prop
  | intro {reg : Nat} (uses : ∀ use ∈ graph.users reg, use.1 ≠ target →
      OnlyFor graph target use.1) :
      OnlyFor graph target reg

/-- Only definitions that nothing else uses are edited, and for all values of the leaves the
target keeps its value. -/
def KeepsCast (graph : Graph) (target : Nat) (insn : Instruction) (result : Simplified) : Prop :=
  (∀ reg, reg ≠ target → result.graph.defs reg ≠ graph.defs reg → graph.OnlyFor target reg) ∧
  ∀ value, Evaluates graph.defs value → ∃ value', Evaluates result.graph.defs value' ∧
    SameLeaves graph.defs value value' ∧
    value' result.value % 2 ^ insn.size = value (.reg target) % 2 ^ insn.size

def AgreeOn (mask : BitVec 64) (x y : Nat) : Prop :=
  ∀ i, mask.getLsbD i = true → x.testBit i = y.testBit i

def Covers (code mask : BitVec 64) : Prop :=
  ∀ i, mask.getLsbD i = true → code.getLsbD i = true

def Instruction.Widths (insn : Instruction) : Prop :=
  match insn.opcode with
  | .trunc => 0 < insn.size ∧ insn.size < insn.itype ∧ insn.itype ≤ 64
  | .zext | .sext => 0 < insn.itype ∧ insn.itype < insn.size ∧ insn.size ≤ 64
  | _ => 0 < insn.size ∧ insn.size ≤ 64

def Instruction.sourceWidth (insn : Instruction) : Nat :=
  match insn.opcode with
  | .trunc | .zext | .sext => insn.itype
  | opcode => if opcode.isCompare then insn.itype else insn.size

/-- Operands have the widths that the instructions read.  The condition of a select and the
count of a shift can have any width. -/
structure Graph.Typed (graph : Graph) : Prop where
  widths : ∀ reg insn, graph.defs reg = some insn → insn.Widths
  first : ∀ reg insn, graph.defs reg = some insn → insn.opcode ≠ .sel → ∀ used inner,
    insn.src1 = .reg used → graph.defs used = some inner → inner.size = insn.sourceWidth
  second : ∀ reg insn, graph.defs reg = some insn → (insn.opcode = .and ∨ insn.opcode = .or ∨
    insn.opcode = .xor) → ∀ used inner, insn.src2 = .reg used → graph.defs used = some inner →
      inner.size = insn.size

section Edits

variable {graph : Graph} {number : Nat → Nat} {target : Nat} {insn : Instruction}
  {value value' : Pseudo → Nat}

theorem keepsCast_of_keepsTarget {result : Simplified}
    (keeps : KeepsTarget graph target insn result) : KeepsCast graph target insn result := by
  refine ⟨fun reg other changed => ⟨fun use member away => ?_⟩, keeps.2⟩
  exact absurd (keeps.1 reg other changed use member) away

/-- A definition below the target is replaced.  What the chain of registers from it to the
target does not reach keeps its value. -/
theorem exists_of_setDef (wf : graph.WellFormed number) {reg : Nat} {new : Instruction}
    (defined : graph.defs reg ≠ none) (chain : Nat → Prop) (inside : chain reg)
    (uses : ∀ used, chain used → ∀ use ∈ graph.users used, use.1 = target ∨ chain use.1)
    (operands : ∀ slot pseudo, (slot, pseudo) ∈ new.operands → Before number reg pseudo)
    (evaluates : Evaluates graph.defs value) :
    ∃ value', Evaluates (graph.setDef reg new).defs value' ∧ SameLeaves graph.defs value value' ∧
      ∀ pseudo, Before number target pseudo → (∀ used, pseudo = .reg used → ¬chain used) →
        value' pseudo = value pseudo := by
  have kept : ∀ other, other ≠ reg → (graph.setDef reg new).defs other = graph.defs other :=
    fun other away => update_of_ne away ..
  have ordered : Ordered number (graph.setDef reg new).defs := by
    intro other insn' defined' slot used member
    by_cases same : other = reg
    · subst same
      cases (update_self ..).symm.trans defined'
      exact operands slot _ member used rfl
    · exact wf.ordered other insn' ((kept other same).symm.trans defined') slot used member
  obtain ⟨value', evaluates', leaves⟩ := ordered.exists_evaluates value
  have leaves : SameLeaves graph.defs value value' := by
    refine leaves.of_edits fun other undefined => (kept other ?_).trans undefined
    rintro rfl
    exact defined undefined
  refine ⟨value', evaluates', leaves, fun pseudo before outside => ?_⟩
  refine agree_of_registers evaluates evaluates' leaves ?_
  intro nr here
  refine Evaluates.agree_outside wf.ordered evaluates evaluates' leaves target chain ?_ ?_
    (before nr here) (outside nr here)
  · intro other _ away
    refine kept other ?_
    rintro rfl
    exact away inside
  · intro user insn' defined' slot used member edited
    rcases uses used edited _ (wf.used user insn' defined' slot used member) with same | same
    · exact Or.inr (congrArg number same).ge
    · exact Or.inl same

theorem onlyFor_of_next {reg next : Nat} (uses : ∀ use ∈ graph.users reg, use.1 = next)
    (only : next = target ∨ graph.OnlyFor target next) : graph.OnlyFor target reg := by
  refine ⟨fun use member away => ?_⟩
  rw [uses use member] at away ⊢
  rcases only with same | only
  · exact absurd same away
  · exact only

end Edits

/-! ## Below a mask -/

/-- The register `orReg` is defined by an `OR`, which the instruction of `user` reads.  Of its
bits only those of the mask matter for the target, and the registers of the chain between it
and the target are only used for the target. -/
structure MaskContext (graph : Graph) (number : Nat → Nat) (target : Nat) (insn : Instruction)
    (chain : Nat → Prop) (user : Nat) (mask : BitVec 64) (orReg : Nat) (union : Instruction) :
    Prop where
  wf : graph.WellFormed number
  defined : graph.defs orReg = some union
  opcode : union.opcode = .or
  within : ∀ i, mask.getLsbD i = true → i < union.size
  below : number orReg < number target
  next : user = target ∨ chain user
  used : ∃ slot, (user, slot) ∈ graph.users orReg
  above : ∀ used, chain used → number orReg < number used
  uses : ∀ used, chain used → ∀ use ∈ graph.users used, use.1 = target ∨ chain use.1
  only : ∀ used, chain used → graph.OnlyFor target used
  result : ∀ {graph' : Graph} {value value' : Pseudo → Nat}, (∀ reg, reg = target ∨ chain reg →
    graph'.defs reg = graph.defs reg) → Evaluates graph.defs value → Evaluates graph'.defs value' →
      AgreeOn mask (value' (.reg orReg)) (value (.reg orReg)) →
        value' (.reg target) % 2 ^ insn.size = value (.reg target) % 2 ^ insn.size

namespace MaskContext

variable {graph : Graph} {number : Nat → Nat} {target : Nat} {insn : Instruction}
  {chain : Nat → Prop} {user : Nat} {mask code : BitVec 64} {orReg : Nat} {union : Instruction}

section

variable (context : MaskContext graph number target insn chain user mask orReg union)
include context

theorem uses_or (once : graph.oneUse orReg = true) : ∀ use ∈ graph.users orReg, use.1 = user := by
  intro use member
  obtain ⟨slot, used⟩ := context.used
  rw [eq_of_oneUse once used member]

theorem only_or (once : graph.oneUse orReg = true) : graph.OnlyFor target orReg := by
  refine onlyFor_of_next (context.uses_or once) ?_
  rcases context.next with same | next
  · exact Or.inl same
  · exact Or.inr (context.only user next)

theorem uses_chain (once : graph.oneUse orReg = true) (used : Nat)
    (inside : used = orReg ∨ chain used) :
    ∀ use ∈ graph.users used, use.1 = target ∨ use.1 = orReg ∨ chain use.1 := by
  intro use member
  rcases inside with rfl | inside
  · rw [context.uses_or once use member]
    rcases context.next with same | next
    · exact Or.inl same
    · exact Or.inr (Or.inr next)
  · rcases context.uses used inside use member with same | next
    · exact Or.inl same
    · exact Or.inr (Or.inr next)

/-- The operands of the `OR` come before it, and so before the chain. -/
theorem before_or {slot : Slot} {pseudo : Pseudo} (member : (slot, pseudo) ∈ union.operands) :
    Before number orReg pseudo :=
  before_operand context.wf context.defined member

theorem outside {used : Nat} (less : number used < number orReg) :
    ¬(used = orReg ∨ chain used) := by
  rintro (rfl | inside)
  · exact lt_irrefl _ less
  · exact absurd (context.above used inside) (not_lt.mpr less.le)

theorem keeps_setOr (once : graph.oneUse orReg = true) {new : Instruction}
    (operands : ∀ slot pseudo, (slot, pseudo) ∈ new.operands → Before number orReg pseudo)
    (agree : ∀ value, Evaluates graph.defs value →
      AgreeOn mask (new.eval (value new.src1) (value new.src2) (value new.src3))
        (value (.reg orReg))) :
    KeepsCast graph target insn ⟨graph.setDef orReg new, .reg target⟩ := by
  constructor
  · intro reg other changed
    by_cases same : reg = orReg
    · rw [same]
      exact context.only_or once
    · exact absurd (update_of_ne same ..) changed
  · intro value evaluates
    obtain ⟨value', evaluates', leaves, kept⟩ := exists_of_setDef context.wf
      (by rw [context.defined]; exact Option.some_ne_none _)
      (fun used => used = orReg ∨ chain used) (Or.inl rfl) (context.uses_chain once) operands
      evaluates
    refine ⟨value', evaluates', leaves, context.result ?_ evaluates evaluates' ?_⟩
    · intro reg place
      refine update_of_ne ?_ ..
      rintro rfl
      rcases place with same | inside
      · exact absurd context.below (by rw [same]; exact lt_irrefl _)
      · exact lt_irrefl _ (context.above reg inside)
    · rw [evaluates'.defined orReg new (update_self ..)]
      rw [new.eval_congr fun slot pseudo member =>
        kept pseudo (fun nr here => (operands slot pseudo member nr here).trans context.below)
          fun used here => context.outside (operands slot pseudo member used here)]
      exact agree value evaluates

theorem keeps_setOperand (once : graph.oneUse orReg = true) {reg : Nat} {inner : Instruction}
    (defined : graph.defs reg = some inner) (onceReg : graph.oneUse reg = true) {slot : Slot}
    (member : (slot, .reg reg) ∈ union.operands) {new : Instruction}
    (operands : ∀ slot pseudo, (slot, pseudo) ∈ new.operands → Before number reg pseudo)
    (agree : ∀ value, Evaluates graph.defs value →
      AgreeOn mask (new.eval (value new.src1) (value new.src2) (value new.src3))
        (value (.reg reg))) :
    KeepsCast graph target insn ⟨graph.setDef reg new, .reg target⟩ := by
  have less : number reg < number orReg := context.before_or member reg rfl
  have listed := context.wf.used orReg union context.defined slot reg member
  have uses : ∀ use ∈ graph.users reg, use.1 = orReg := by
    intro use member
    rw [eq_of_oneUse onceReg listed member]
  have distinct : orReg ≠ reg := by
    rintro rfl
    exact lt_irrefl _ less
  constructor
  · intro other away changed
    by_cases same : other = reg
    · rw [same]
      exact onlyFor_of_next uses (Or.inr (context.only_or once))
    · exact absurd (update_of_ne same ..) changed
  · intro value evaluates
    obtain ⟨value', evaluates', leaves, kept⟩ := exists_of_setDef context.wf
      (by rw [defined]; exact Option.some_ne_none _)
      (fun used => used = reg ∨ used = orReg ∨ chain used) (Or.inl rfl)
      (by
        rintro used (rfl | inside) use member
        · exact Or.inr (Or.inr (Or.inl (uses use member)))
        · rcases context.uses_chain once used inside use member with same | next
          · exact Or.inl same
          · exact Or.inr (Or.inr next)) operands evaluates
    have definedOr : (graph.setDef reg new).defs orReg = some union :=
      (update_of_ne distinct ..).trans context.defined
    refine ⟨value', evaluates', leaves, context.result ?_ evaluates evaluates' ?_⟩
    · intro other place
      refine update_of_ne ?_ ..
      rintro rfl
      rcases place with same | inside
      · rw [same] at less
        exact absurd (less.trans context.below) (lt_irrefl _)
      · exact absurd (less.trans (context.above other inside)) (lt_irrefl _)
    · have first : AgreeOn mask (value' (.reg reg)) (value (.reg reg)) := by
        rw [evaluates'.defined reg new (update_self ..)]
        rw [new.eval_congr fun slot pseudo member =>
          kept pseudo (fun nr here =>
              ((operands slot pseudo member nr here).trans less).trans context.below)
            fun used here => by
              have lower := operands slot pseudo member used here
              rintro (rfl | inside)
              · exact lt_irrefl _ lower
              · exact context.outside (lower.trans less) inside]
        exact agree value evaluates
      have operand : ∀ {slot pseudo}, (slot, pseudo) ∈ union.operands →
          AgreeOn mask (value' pseudo) (value pseudo) := by
        intro slot' pseudo member'
        by_cases same : pseudo = .reg reg
        · rw [same]
          exact first
        · rw [kept pseudo (fun nr here => (context.before_or member' nr here).trans context.below)]
          · exact fun i _ => rfl
          · rintro used rfl (rfl | inside)
            · exact same rfl
            · exact context.outside (context.before_or member' used rfl) inside
      have two : union.operands = [(.src1, union.src1), (.src2, union.src2)] := by
        unfold Instruction.operands
        rw [context.opcode]
        rfl
      intro i bit
      rw [evaluates'.defined orReg union definedOr, evaluates.defined orReg union context.defined,
        testBit_or _ _ _ _ context.opcode, testBit_or _ _ _ _ context.opcode,
        operand (two ▸ List.mem_cons_self) i bit,
        operand (two ▸ List.mem_cons_of_mem _ List.mem_cons_self) i bit]

theorem testBit_value {value : Pseudo → Nat} (evaluates : Evaluates graph.defs value) {i : Nat}
    (bit : mask.getLsbD i = true) :
    (value (.reg orReg)).testBit i =
      ((value union.src1).testBit i || (value union.src2).testBit i) := by
  rw [evaluates.defined orReg union context.defined, testBit_or _ _ _ _ context.opcode,
    decide_eq_true (context.within i bit), Bool.true_and]

/-- The bits of an operand that is an `AND`. -/
theorem testBit_operand (typed : graph.Typed) {ora : Pseudo}
    (side : ora = union.src1 ∨ ora = union.src2) {andReg : Nat} {inner : Instruction}
    (found : graph.def? ora = some (andReg, inner)) (opcode : inner.opcode = .and)
    {omask : BitVec 64} (constant : inner.src2 = .val omask) {value : Pseudo → Nat}
    (evaluates : Evaluates graph.defs value) {i : Nat} (bit : mask.getLsbD i = true) :
    (value ora).testBit i = ((value inner.src1).testBit i && omask.getLsbD i) := by
  obtain ⟨place, defined⟩ := def?_eq_some found
  have width : inner.size = union.size := by
    rcases side with same | same
    · have first := typed.first orReg union context.defined
        (by rw [context.opcode]; exact Opcode.noConfusion) andReg inner (same ▸ place) defined
      unfold Instruction.sourceWidth at first
      rw [context.opcode] at first
      exact first
    · exact typed.second orReg union context.defined (Or.inr (Or.inl context.opcode)) andReg inner
        (same ▸ place) defined
  rw [place, evaluates.defined andReg inner defined, testBit_and _ _ _ _ opcode, constant,
    evaluates.constant, testBit_toNat, width, decide_eq_true (context.within i bit), Bool.true_and]

end

/-- The instruction that masks the `OR` may read another pseudo in its place. -/
def Redirects (graph : Graph) (number : Nat → Nat) (target : Nat) (insn : Instruction)
    (user : Nat) (userInsn : Instruction) (mask : BitVec 64) (orReg : Nat) : Prop :=
  ∀ pseudo, Before number orReg pseudo → (∀ value, Evaluates graph.defs value →
    AgreeOn mask (value pseudo) (value (.reg orReg))) →
      KeepsCast graph target insn
        ⟨graph.setDef user { userInsn with src1 := pseudo }, .reg target⟩

section

variable (context : MaskContext graph number target insn chain user mask orReg union)
include context

theorem mem_operands {pseudo : Pseudo} (side : pseudo = union.src1 ∨ pseudo = union.src2) :
    ∃ slot, (slot, pseudo) ∈ union.operands := by
  have two : union.operands = [(.src1, union.src1), (.src2, union.src2)] := by
    unfold Instruction.operands
    rw [context.opcode]
    rfl
  rw [two]
  rcases side with rfl | rfl
  · exact ⟨.src1, List.mem_cons_self⟩
  · exact ⟨.src2, List.mem_cons_of_mem _ List.mem_cons_self⟩

theorem before_side {pseudo : Pseudo} (side : pseudo = union.src1 ∨ pseudo = union.src2) :
    Before number orReg pseudo := by
  obtain ⟨slot, member⟩ := context.mem_operands side
  exact context.before_or member

/-- The operands of an `OR` that replaces the old one. -/
theorem before_newOr {new : Instruction} (opcode : new.opcode = union.opcode)
    (first : Before number orReg new.src1) (second : Before number orReg new.src2) :
    ∀ slot pseudo, (slot, pseudo) ∈ new.operands → Before number orReg pseudo := by
  intro slot pseudo member
  unfold Instruction.operands at member
  rw [opcode, context.opcode] at member
  rcases List.mem_pair.mp member with same | same
  · cases same
    exact first
  · cases same
    exact second

end

theorem bit_of_and_eq {x y : BitVec 64} (same : x &&& y = y) {i : Nat}
    (bit : y.getLsbD i = true) : x.getLsbD i = true := by
  rw [← same, BitVec.getLsbD_and, Bool.and_eq_true] at bit
  exact bit.1

theorem bit_of_and_zero {x y : BitVec 64} (zero : x &&& y = 0) {i : Nat}
    (bit : y.getLsbD i = true) : x.getLsbD i = false := by
  have none := congrArg (BitVec.getLsbD · i) zero
  rw [BitVec.getLsbD_and, bit, Bool.and_true] at none
  rw [none]
  exact BitVec.getLsbD_zero

section

variable (context : MaskContext graph number target insn chain user mask orReg union)
include context

/-- `simplify_mask_or_and` keeps the value of the target.  Its mask may have further bits. -/
theorem keeps_simplifyMaskOrAnd (typed : graph.Typed) (covers : Covers code mask)
    {userInsn : Instruction}
    (redirects : Redirects graph number target insn user userInsn mask orReg) {ora orb : Pseudo}
    (sides : ora = union.src1 ∧ orb = union.src2 ∨ ora = union.src2 ∧ orb = union.src1)
    {graph' : Graph}
    (changed : simplifyMaskOrAnd graph user userInsn code orReg union ora orb = some graph') :
    KeepsCast graph target insn ⟨graph', .reg target⟩ := by
  have sideA : ora = union.src1 ∨ ora = union.src2 := sides.imp And.left And.left
  have sideB : orb = union.src1 ∨ orb = union.src2 := (sides.imp And.right And.right).symm
  have both : ∀ {value i}, Evaluates graph.defs value → mask.getLsbD i = true →
      (value (.reg orReg)).testBit i = ((value ora).testBit i || (value orb).testBit i) := by
    intro value i evaluates bit
    rw [context.testBit_value evaluates bit]
    rcases sides with ⟨rfl, rfl⟩ | ⟨rfl, rfl⟩
    · rfl
    · exact Bool.or_comm _ _
  unfold simplifyMaskOrAnd at changed
  cases found : graph.def? ora with
  | none =>
    rw [found] at changed
    cases changed
  | some definition =>
    obtain ⟨andReg, inner⟩ := definition
    obtain ⟨place, defined⟩ := def?_eq_some found
    rw [found] at changed
    dsimp only at changed
    split at changed
    · rename_i omask opcode constant
      have own := fun {value i} (evaluates : Evaluates graph.defs value) bit =>
        @testBit_operand _ _ _ _ _ _ _ _ _ context typed _ sideA _ _ found opcode _ constant
          value evaluates i bit
      have beforeAnd : Before number andReg inner.src1 :=
        before_operand context.wf defined (src1_mem_operands inner)
      have lessAnd : number andReg < number orReg := context.before_side sideA andReg place
      have beforeOr : Before number orReg inner.src1 :=
        fun nr here => (beforeAnd nr here).trans lessAnd
      have kept : omask &&& code = code → ∀ {value i}, Evaluates graph.defs value →
          mask.getLsbD i = true → (value inner.src1).testBit i = (value ora).testBit i := by
        intro full value i evaluates bit
        rw [own evaluates bit, bit_of_and_eq full (covers i bit), Bool.and_true]
      split_ifs at changed with zero uses full first part
      · -- The mask removes all of the `AND`.
        cases changed
        refine redirects orb (context.before_side sideB) fun value evaluates i bit => ?_
        rw [both evaluates bit, own evaluates bit, bit_of_and_zero zero (covers i bit),
          Bool.and_false,
          Bool.false_or]
      · -- The `AND` removes nothing that the mask keeps.
        cases changed
        refine context.keeps_setOr (Bool.not_eq_false _ |>.mp uses) (context.before_newOr rfl
          beforeOr (context.before_side (Or.inr rfl))) fun value evaluates i bit => ?_
        rw [context.testBit_value evaluates bit, testBit_or _ _ _ _ (by exact context.opcode),
          decide_eq_true (by exact context.within i bit), Bool.true_and]
        dsimp only
        rw [kept full evaluates bit, first]
      · cases changed
        have second : ora = union.src2 := sideA.resolve_left first
        refine context.keeps_setOr (Bool.not_eq_false _ |>.mp uses) (context.before_newOr rfl
          (context.before_side (Or.inl rfl)) beforeOr) fun value evaluates i bit => ?_
        rw [context.testBit_value evaluates bit, testBit_or _ _ _ _ (by exact context.opcode),
          decide_eq_true (by exact context.within i bit), Bool.true_and]
        dsimp only
        rw [kept full evaluates bit, second]
      · -- Less of the `AND` is needed.
        cases changed
        obtain ⟨slot, member⟩ := context.mem_operands sideA
        refine context.keeps_setOperand (Bool.not_eq_false _ |>.mp uses) defined part.2
          (place ▸ member) ?_ fun value evaluates i bit => ?_
        · intro slot pseudo member
          unfold Instruction.operands at member
          rw [opcode] at member
          rcases List.mem_pair.mp member with same | same
          · cases same
            exact beforeAnd
          · cases same
            exact before_val _
        · rw [evaluates.defined andReg inner defined, testBit_and _ _ _ _ opcode,
            testBit_and _ _ _ _ (by exact opcode)]
          dsimp only
          rw [constant, evaluates.constant, evaluates.constant, testBit_toNat, testBit_toNat,
            BitVec.getLsbD_and, covers i bit, Bool.and_true]
    · cases changed

/-- `simplify_mask_or` with a constant keeps the value of the target. -/
theorem keeps_simplifyMaskOrVal (covers : Covers code mask) {userInsn : Instruction}
    (redirects : Redirects graph number target insn user userInsn mask orReg) {oval : BitVec 64}
    (constant : union.src2 = .val oval) {graph' : Graph}
    (changed : simplifyMaskOrVal graph user userInsn code orReg union oval = some graph') :
    KeepsCast graph target insn ⟨graph', .reg target⟩ := by
  have first := context.before_side (Or.inl rfl)
  have bits : ∀ {value i}, Evaluates graph.defs value → mask.getLsbD i = true →
      (value (.reg orReg)).testBit i = ((value union.src1).testBit i || oval.getLsbD i) := by
    intro value i evaluates bit
    rw [context.testBit_value evaluates bit, constant, evaluates.constant, testBit_toNat]
  unfold simplifyMaskOrVal at changed
  dsimp only at changed
  split_ifs at changed with zero full part
  · cases changed
    refine redirects union.src1 first fun value evaluates i bit => ?_
    rw [bits evaluates bit, bit_of_and_zero zero (covers i bit), Bool.or_false]
  · cases changed
    refine redirects (.val code) (before_val code) fun value evaluates i bit => ?_
    rw [bits evaluates bit, bit_of_and_eq full (covers i bit), Bool.or_true, evaluates.constant,
      testBit_toNat, covers i bit]
  · cases changed
    refine context.keeps_setOr part.2 (context.before_newOr rfl first (before_val _))
      fun value evaluates i bit => ?_
    rw [bits evaluates bit, testBit_or _ _ _ _ (by exact context.opcode),
      decide_eq_true (by exact context.within i bit), Bool.true_and]
    dsimp only
    rw [evaluates.constant, testBit_toNat, BitVec.getLsbD_and, covers i bit, Bool.and_true]

theorem keeps_simplifyMaskOr (typed : graph.Typed) (covers : Covers code mask)
    {userInsn : Instruction}
    (redirects : Redirects graph number target insn user userInsn mask orReg) {graph' : Graph}
    (changed : simplifyMaskOr graph user userInsn code orReg union = some graph') :
    KeepsCast graph target insn ⟨graph', .reg target⟩ := by
  unfold simplifyMaskOr at changed
  rcases Option.or_eq_some_iff.mp changed with left | ⟨-, right⟩
  · exact context.keeps_simplifyMaskOrAnd typed covers redirects (Or.inl ⟨rfl, rfl⟩) left
  · split at right
    · rename_i oval constant
      exact context.keeps_simplifyMaskOrVal covers redirects constant right
    · exact context.keeps_simplifyMaskOrAnd typed covers redirects (Or.inr ⟨rfl, rfl⟩) right

end

end MaskContext

end SmatchFormal.Ir
