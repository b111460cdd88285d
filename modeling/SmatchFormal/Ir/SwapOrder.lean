import SmatchFormal.Ir.FactorOrder

/-!
# Exchanged operands stay defined before their uses

`simplify_associative_binop` and `simplify_select` test the pseudo that they move, so
that only the patterns of a common operand can put a use before its definition.
-/

namespace SmatchFormal.Ir

/-! ## `simplify_associative_binop` -/

/-- `enum pseudo_type`, for a pseudo that is neither a register nor a value. -/
inductive LeafType where
  | void | undef | phi | arg | sym
  deriving DecidableEq

def LeafType.rank : LeafType → Nat
  | void => 0
  | undef => 1
  | phi => 2
  | arg => 4
  | sym => 5

section Associative

variable (leafType : Nat → LeafType)

/-- The place of the type of a pseudo in `enum pseudo_type`. -/
def Pseudo.rank : Pseudo → Nat
  | .reg _ => 3
  | .val _ => 6
  | .arg nr => (leafType nr).rank

/-- `canonical_order`; symbols are ordered by their numbers as well. -/
def canonicalOrder (p1 p2 : Pseudo) : Bool :=
  if p1.rank leafType < p2.rank leafType then true
  else if p2.rank leafType < p1.rank leafType then false
  else
    match p1, p2 with
    | .reg nr1, .reg nr2 => decide (nr1 ≤ nr2)
    | .arg nr1, .arg nr2 =>
      match leafType nr1 with
      | .arg | .sym => decide (nr1 ≤ nr2)
      | _ => true
    | _, _ => true

def Pseudo.isSimple : Pseudo → Bool
  | .val _ => true
  | .arg nr => leafType nr == .sym
  | .reg _ => false

def simplifyAssociativeBinop (graph : Graph) (target : Nat) (insn : Instruction) : Graph :=
  if insn.src2.isSimple leafType then
    match graph.def? insn.src1 with
    | none => graph
    | some (reg, inner) =>
      if reg ≠ target ∧ inner.opcode = insn.opcode ∧ inner.src2.isSimple leafType = true then
        match inner.src2, insn.src2 with
        | .val c, .val k =>
          match evalOp insn.opcode insn.size k c with
          | some value => graph.setDef target { insn with src1 := inner.src1, src2 := .val value }
          | none => graph
        | _, _ =>
          if canonicalOrder leafType inner.src1 insn.src2 = false ∧
              graph.canMoveTo insn.src2 reg = true then
            (graph.setDef reg { inner with src1 := insn.src2 }).setDef target
              { insn with src2 := inner.src1 }
          else graph
      else graph
  else graph

end Associative

def Opcode.isAssociative : Opcode → Bool
  | .add | .mul | .and | .or | .xor => true
  | _ => false

section Order

variable {graph : Graph} {target : Nat} {insn : Instruction} {leafType : Nat → LeafType}

theorem arity_of_isAssociative {opcode : Opcode} (associative : opcode.isAssociative = true) :
    opcode.arity = 2 := by
  cases opcode <;> first | rfl | cases associative

theorem placed_of_isSimple {pseudo : Pseudo} (simple : pseudo.isSimple leafType = true)
    (user : Nat) : graph.Placed user pseudo := by
  rintro reg rfl
  cases simple

theorem placed_of_pair {user : Nat} {new : Instruction} (two : new.opcode.arity = 2)
    (first : graph.Placed user new.src1) (second : graph.Placed user new.src2) :
    ∀ slot pseudo, (slot, pseudo) ∈ new.operands → graph.Placed user pseudo := by
  intro slot pseudo member
  rcases operands_of_arity two member with rfl | rfl
  · exact first
  · exact second

theorem placed_of_select {user : Nat} {new : Instruction} (select : new.opcode = .sel)
    (first : graph.Placed user new.src1) (second : graph.Placed user new.src2)
    (third : graph.Placed user new.src3) :
    ∀ slot pseudo, (slot, pseudo) ∈ new.operands → graph.Placed user pseudo := by
  intro slot pseudo member
  unfold Instruction.operands at member
  rw [select] at member
  rcases List.mem_cons.mp member with same | member
  · cases same
    exact first
  · rcases List.mem_pair.mp member with same | same
    · cases same
      exact second
    · cases same
      exact third

/-- An operand of the definition of an operand comes before the target. -/
theorem placed_inner (layout : graph.Layout) (dominated : graph.Dominated)
    {reg : Nat} {inner : Instruction} (defined : graph.defs reg = some inner)
    (outer : graph.Placed target (.reg reg)) : graph.Placed target inner.src1 :=
  (dominated reg inner defined .src1 _ (src1_mem_operands inner)).trans layout outer

theorem dominated_simplifyAssociativeBinop (layout : graph.Layout) (dominated : graph.Dominated)
    (defined : graph.defs target = some insn) (associative : insn.opcode.isAssociative = true) :
    (simplifyAssociativeBinop leafType graph target insn).Dominated := by
  have two := arity_of_isAssociative associative
  unfold simplifyAssociativeBinop
  by_cases simple : insn.src2.isSimple leafType = true
  · rw [if_pos simple]
    cases found : graph.def? insn.src1 with
    | none => exact dominated
    | some definition =>
      obtain ⟨reg, inner⟩ := definition
      obtain ⟨place, definedReg⟩ := def?_eq_some found
      have outer : graph.Placed target (.reg reg) :=
        place ▸ dominated target insn defined .src1 _ (src1_mem_operands insn)
      have below := placed_inner layout dominated definedReg outer
      dsimp only
      by_cases tests : reg ≠ target ∧ inner.opcode = insn.opcode ∧
          inner.src2.isSimple leafType = true
      · rw [if_pos tests]
        have twoInner : inner.opcode.arity = 2 := tests.2.1 ▸ two
        have own := placed_operands dominated found twoInner
        have exchange : ((graph.setDef reg { inner with src1 := insn.src2 }).setDef target
            { insn with src2 := inner.src1 }).Dominated := by
          rw [dominated_pair_iff dominated tests.1]
          · exact placed_of_pair twoInner (placed_of_isSimple simple reg) own.2
          · exact placed_of_pair two (place ▸ outer) below
        split
        · split
          · exact dominated_setDef dominated (placed_of_pair two below (placed_val graph target _))
          · exact dominated
        · split_ifs
          · exact exchange
          · exact dominated
      · rw [if_neg tests]
        exact dominated
  · rw [if_neg simple]
    exact dominated

/-- `swap_select` keeps every use dominated when the condition comes before the definition. -/
theorem dominated_swapSelect (dominated : graph.Dominated) (select : insn.opcode = .sel)
    {reg : Nat} {op : Instruction} (two : op.opcode.arity = 2)
    (outer : graph.Placed target (.reg reg))
    {a b c d : Pseudo} (first : graph.Placed reg a) (second : graph.Placed reg b)
    (third : graph.Placed reg c) (last : graph.Placed target d) :
    (swapSelect graph target insn reg op a b c d).Dominated := by
  unfold swapSelect
  rw [dominated_pair_iff dominated (outer reg rfl).1]
  · exact placed_of_select select first second third
  · exact placed_of_pair two outer last

/-- The operand that goes into the select belongs to the edited definition already. -/
theorem placed_of_factors (dominated : graph.Dominated) {cond arm other z : Pseudo} {reg : Nat}
    {op : Instruction} (factors : Factors graph cond arm other reg op z) :
    op.opcode.arity = 2 ∧ graph.Placed reg cond ∧ graph.Placed reg z := by
  have two : op.opcode.arity = 2 := by
    rcases factors.opcode with kind | kind | kind <;> rw [kind] <;> rfl
  refine ⟨two, (canMoveTo_iff.mp factors.moves).2, ?_⟩
  rcases factors.sides with ⟨-, rfl⟩ | ⟨-, rfl⟩
  · exact dominated reg op factors.defined .src2 _ (BitOperation.src2_mem_operands two)
  · exact dominated reg op factors.defined .src1 _ (src1_mem_operands op)

theorem dominated_simplifySelect (layout : graph.Layout) (dominated : graph.Dominated)
    (defined : graph.defs target = some insn) (select : insn.opcode = .sel) :
    (simplifySelect graph target insn).graph.Dominated := by
  have place : ∀ slot pseudo, (slot, pseudo) ∈ insn.operands → graph.Placed target pseudo :=
    dominated target insn defined
  have operands : insn.operands = [(.src1, insn.src1), (.src2, insn.src2), (.src3, insn.src3)] := by
    unfold Instruction.operands
    rw [select]
    rfl
  rw [operands] at place
  have first : graph.Placed target insn.src1 := place .src1 _ (.head _)
  have second : graph.Placed target insn.src2 := place .src2 _ (.tail _ (.head _))
  have third : graph.Placed target insn.src3 := place .src3 _ (.tail _ (.tail _ (.head _)))
  have used := matches_selectRule graph insn
  unfold simplifySelect
  cases rule : selectRule graph insn with
  | constant value | same | selfFalse | selfTrue | equal cmp | notEqual cmp | selectSame inner
  | selectTrue inner | none => exact dominated
  | zeroOne opcode zero =>
    rw [rule] at used
    obtain ⟨rfl, kind⟩ := used
    refine dominated_setDef dominated (placed_of_pair ?_ first (placed_val graph target 0))
    rcases kind with ⟨rfl, -⟩ | ⟨rfl, -⟩ <;> rfl
  | negate reg cmp =>
    rw [rule] at used
    obtain ⟨kind, cond, definedCmp, -⟩ := used
    have own := dominated reg cmp definedCmp
    have outer : graph.Placed target (.reg reg) := cond ▸ first
    refine (dominated_pair_iff dominated (outer reg rfl).1 ?_).mpr ?_
    · exact placed_of_select select first third second
    · have two : cmp.opcode.arity = 2 ∧ (cmp.opcode.negate.getD cmp.opcode).arity = 2 := by
        rcases kind with kind | kind | kind | kind <;> rw [kind] <;> exact ⟨rfl, rfl⟩
      exact placed_of_pair two.2 (own .src1 _ (src1_mem_operands cmp))
        (own .src2 _ (BitOperation.src2_mem_operands two.1))
  | greater reg cmp =>
    rw [rule] at used
    obtain ⟨kind, -, -, definedCmp, -⟩ := used
    have own := dominated reg cmp definedCmp
    have two : cmp.opcode.arity = 2 := by
      rw [kind]
      rfl
    exact dominated_setDef dominated (placed_of_pair rfl (own .src1 _ (src1_mem_operands cmp))
      (own .src2 _ (BitOperation.src2_mem_operands two)))
  | selectCond inner =>
    rw [rule] at used
    obtain ⟨-, ⟨reg, cond, definedInner⟩, -⟩ := used
    have below := placed_inner layout dominated definedInner (cond ▸ first)
    exact dominated_setDef dominated (placed_of_select select below second third)
  | selectSwap inner =>
    rw [rule] at used
    obtain ⟨-, ⟨reg, cond, definedInner⟩, -⟩ := used
    have below := placed_inner layout dominated definedInner (cond ▸ first)
    exact dominated_setDef dominated (placed_of_select select below third second)
  | shift inner a b =>
    unfold SelectRule.apply
    dsimp only
    by_cases same : log2Exact a = log2Exact b
    · rw [if_pos same]
      exact dominated
    · rw [if_neg same]
      refine dominated_setDef dominated (placed_of_pair ?_ first (placed_val graph target _))
      dsimp only
      split_ifs <;> rfl
  | factorTrue reg op z =>
    rw [rule] at used
    obtain ⟨two, cond, own⟩ := placed_of_factors dominated used
    exact dominated_swapSelect dominated select two (used.arm ▸ second) cond own
      (placed_val graph reg 0) third
  | factorFalse reg op z =>
    rw [rule] at used
    obtain ⟨two, cond, own⟩ := placed_of_factors dominated used
    exact dominated_swapSelect dominated select two (used.arm ▸ third) cond
      (placed_val graph reg 0) own second

/-- Other instructions have no common operand to factor out. -/
theorem dominated_simplifySides_other (dominated : graph.Dominated)
    (kind : ¬(insn.opcode = .add ∨ insn.opcode.IsBits)) :
    (simplifySides graph target insn).graph.Dominated ∧
      ∀ regr moved, ¬Untested graph insn regr moved := by
  have pair : ∀ common, ¬FactorPair insn.opcode common := by
    rintro common (⟨add, -⟩ | ⟨and, -⟩ | ⟨or | xor, -⟩)
    · exact kind (Or.inl add)
    · exact kind (Or.inr (Or.inl and))
    · exact kind (Or.inr (Or.inr (Or.inl or)))
    · exact kind (Or.inr (Or.inr (Or.inr xor)))
  constructor
  · have none : oneSide graph insn insn.src1 insn.src2 = .none ∧
        oneSide graph insn insn.src2 insn.src1 = .none := by
      unfold oneSide
      cases opcode : insn.opcode with
      | add => exact absurd (Or.inl opcode) kind
      | and => exact absurd (Or.inr (Or.inl opcode)) kind
      | or => exact absurd (Or.inr (Or.inr (Or.inl opcode))) kind
      | xor => exact absurd (Or.inr (Or.inr (Or.inr opcode))) kind
      | _ => exact ⟨rfl, rfl⟩
    unfold simplifySides
    rw [sideRule_eq, none.1, none.2]
    exact dominated
  · rintro regr moved (side | ⟨-, side⟩)
    · obtain ⟨⟨_, inner, _, _, _, fits, _⟩, _⟩ := side
      exact pair _ fits
    · obtain ⟨⟨_, inner, _, _, _, fits, _⟩, _⟩ := side
      exact pair _ fits

end Order

/-- The rewrites that move operands keep every use dominated by its definition, apart from the
patterns of a common operand: there the operand of the first definition that is not the common
one is moved without a test, and has to come before the second definition. -/
theorem rewrites_dominated_iff {graph : Graph} {target : Nat} {insn : Instruction}
    (leafType : Nat → LeafType) (layout : graph.Layout) (dominated : graph.Dominated)
    (defined : graph.defs target = some insn) :
    ((simplifySides graph target insn).graph.Dominated ↔
      ∀ regr moved, Untested graph insn regr moved → graph.Placed regr moved) ∧
    (insn.opcode.isAssociative = true →
      (simplifyAssociativeBinop leafType graph target insn).Dominated) ∧
    (insn.opcode = .sel → (simplifySelect graph target insn).graph.Dominated) := by
  refine ⟨?_, fun associative => ?_, fun select => ?_⟩
  · by_cases kind : insn.opcode = .add ∨ insn.opcode.IsBits
    · exact Factorable.dominated_simplifySides_iff ⟨layout, dominated, defined, kind⟩
    · obtain ⟨kept, none⟩ := dominated_simplifySides_other dominated kind
      exact iff_of_true kept fun regr moved here => absurd here (none regr moved)
  · exact dominated_simplifyAssociativeBinop layout dominated defined associative
  · exact dominated_simplifySelect layout dominated defined select

/-! ## One block -/

theorem insnBefore_range' {start count x y : Nat} (lower : start ≤ x) (less : x < y)
    (upper : x < start + count) : insnBefore (List.range' start count) x y = true := by
  induction count generalizing start with
  | zero => omega
  | succ count ih =>
    rw [List.range'_succ]
    unfold insnBefore
    by_cases here : start = x
    · rw [if_pos here]
    · rw [if_neg here, if_neg (by omega)]
      exact ih (by omega) (by omega)

theorem layout_straightLine (code : List Instruction) : (straightLine code).Layout where
  trans := by
    rintro x y z ⟨⟩
  antisymm := by
    rintro x y ⟨⟩

theorem dominated_straightLine {code : List Instruction} (order : InOrder code = true) :
    (straightLine code).Dominated := by
  rintro reg insn defined slot pseudo member used rfl
  have less : used < reg := (wellFormed_straightLine order).ordered reg insn defined slot
    used member
  obtain ⟨inside, -⟩ := List.getElem?_eq_some_iff.mp (show code[reg]? = some insn from defined)
  refine ⟨less.ne, ?_⟩
  change insnBefore (List.range code.length) used reg = true
  rw [List.range_eq_range']
  exact insnBefore_range' (Nat.zero_le used) less (by omega)

/-- `x * z + y * z`, where `y * z` comes first and `x * z` is used once more. -/
def lateFactor : List Instruction :=
  [⟨.mul, 32, 32, .arg 0, .arg 1, .val 0⟩, ⟨.neg, 32, 32, .arg 2, .val 0, .val 0⟩,
    ⟨.mul, 32, 32, .reg 1, .arg 1, .val 0⟩, ⟨.add, 32, 32, .reg 0, .reg 2, .val 0⟩,
    ⟨.neg, 32, 32, .reg 2, .val 0, .val 0⟩]

/-- `x * z + y * z`, where both factors come before both products. -/
def earlyFactor : List Instruction :=
  [⟨.neg, 32, 32, .arg 2, .val 0, .val 0⟩, ⟨.mul, 32, 32, .arg 0, .arg 1, .val 0⟩,
    ⟨.mul, 32, 32, .reg 0, .arg 1, .val 0⟩, ⟨.add, 32, 32, .reg 1, .reg 2, .val 0⟩,
    ⟨.neg, 32, 32, .reg 2, .val 0, .val 0⟩]

theorem rewrites_dominated_earlyFactor :
    InOrder earlyFactor = true ∧
      ((simplifySides (straightLine earlyFactor) 3
          ⟨.add, 32, 32, .reg 1, .reg 2, .val 0⟩).graph.Dominated ↔
        ∀ regr moved, Untested (straightLine earlyFactor)
            ⟨.add, 32, 32, .reg 1, .reg 2, .val 0⟩ regr moved →
          (straightLine earlyFactor).Placed regr moved) :=
  ⟨by decide, (rewrites_dominated_iff (fun _ => .arg) (layout_straightLine earlyFactor)
    (dominated_straightLine (by decide)) rfl).1⟩

/-- The factor `x` is moved into the product that comes before it. -/
theorem not_dominated_lateFactor :
    (straightLine lateFactor).Layout ∧ (straightLine lateFactor).Dominated ∧
      (straightLine lateFactor).defs 3 = some ⟨.add, 32, 32, .reg 0, .reg 2, .val 0⟩ ∧
      ¬(simplifySides (straightLine lateFactor) 3
        ⟨.add, 32, 32, .reg 0, .reg 2, .val 0⟩).graph.Dominated := by
  refine ⟨layout_straightLine lateFactor, dominated_straightLine (by decide), rfl, ?_⟩
  intro kept
  have moved : (simplifySides (straightLine lateFactor) 3
      ⟨.add, 32, 32, .reg 0, .reg 2, .val 0⟩).graph.defs 0 =
      some ⟨.add, 32, 32, .reg 1, .arg 0, .val 0⟩ := by decide
  obtain ⟨-, before⟩ := kept 0 _ moved .src1 (.reg 1) (.head _) 1 rfl
  exact absurd before (by decide)

end SmatchFormal.Ir
