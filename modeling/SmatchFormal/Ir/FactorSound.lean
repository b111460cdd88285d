import SmatchFormal.Ir.Factor
import SmatchFormal.Ir.CompareSound

/-!
# Operations on bits keep their value

All rules of `simplify_and`, `simplify_ior` and `simplify_xor` keep the value of the
target, apart from the one for a range check, which does not look whether both
comparisons are about the same value.
-/

namespace SmatchFormal.Ir

section Bits

variable {w : Nat}

def Opcode.bits : Opcode → BitVec w → BitVec w → BitVec w
  | .and, x, y => x &&& y
  | .or, x, y => x ||| y
  | _, x, y => x ^^^ y

def Opcode.shift : Opcode → BitVec w → Nat → BitVec w
  | .shl, x, n => x <<< n
  | .lsr, x, n => x >>> n
  | _, x, n => x.sshiftRight n

def Opcode.IsBits (opcode : Opcode) : Prop := opcode = .and ∨ opcode = .or ∨ opcode = .xor

def Opcode.IsShift (opcode : Opcode) : Prop := opcode = .shl ∨ opcode = .lsr ∨ opcode = .asr

theorem eval_bits {insn : Instruction} (kind : insn.opcode.IsBits) (v1 v2 v3 : Nat) :
    insn.eval v1 v2 v3 =
      (insn.opcode.bits (BitVec.ofNat insn.size v1) (BitVec.ofNat insn.size v2)).toNat := by
  unfold Instruction.eval
  rcases kind with kind | kind | kind <;> rw [kind] <;> rfl

theorem eval_shift {insn : Instruction} (kind : insn.opcode.IsShift) (v1 v2 v3 : Nat) :
    insn.eval v1 v2 v3 = (insn.opcode.shift (BitVec.ofNat insn.size v1) v2).toNat := by
  unfold Instruction.eval
  rcases kind with kind | kind | kind <;> rw [kind] <;> rfl

theorem ofNat_toNat_self (x : BitVec w) : BitVec.ofNat w x.toNat = x := by
  rw [BitVec.ofNat_toNat, BitVec.setWidth_eq]

theorem bits_comm {opcode : Opcode} (kind : opcode.IsBits) (x y : BitVec w) :
    opcode.bits x y = opcode.bits y x := by
  rcases kind with rfl | rfl | rfl
  · exact BitVec.and_comm x y
  · exact BitVec.or_comm x y
  · exact BitVec.xor_comm x y

/-- `((x # z) $ (y # z)) = ((x $ y) # z)` for the pairs of operations that are factored. -/
theorem bits_factor {outer inner : Opcode}
    (kind : outer = .and ∧ inner = .or ∨ (outer = .or ∨ outer = .xor) ∧ inner = .and)
    (x y z : BitVec w) :
    inner.bits (outer.bits x y) z = outer.bits (inner.bits x z) (inner.bits y z) := by
  rcases kind with ⟨rfl, rfl⟩ | ⟨rfl | rfl, rfl⟩
  · apply BitVec.eq_of_getLsbD_eq
    intro i _
    change ((x &&& y) ||| z).getLsbD i = ((x ||| z) &&& (y ||| z)).getLsbD i
    rw [BitVec.getLsbD_or, BitVec.getLsbD_and, BitVec.getLsbD_and, BitVec.getLsbD_or,
      BitVec.getLsbD_or]
    exact Bool.or_and_distrib_right _ _ _
  · exact BitVec.and_or_distrib_right
  · apply BitVec.eq_of_getLsbD_eq
    intro i _
    change ((x ^^^ y) &&& z).getLsbD i = ((x &&& z) ^^^ (y &&& z)).getLsbD i
    rw [BitVec.getLsbD_and, BitVec.getLsbD_xor, BitVec.getLsbD_xor, BitVec.getLsbD_and,
      BitVec.getLsbD_and]
    exact Bool.and_xor_distrib_right _ _ _

theorem shift_factor {outer shift : Opcode} (kind : outer.IsBits) (kindShift : shift.IsShift)
    (x y : BitVec w) (n : Nat) :
    shift.shift (outer.bits x y) n = outer.bits (shift.shift x n) (shift.shift y n) := by
  rcases kind with rfl | rfl | rfl <;> rcases kindShift with rfl | rfl | rfl
  · exact BitVec.shiftLeft_and_distrib x y n
  · exact BitVec.ushiftRight_and_distrib x y n
  · exact BitVec.sshiftRight_and_distrib x y n
  · exact BitVec.shiftLeft_or_distrib x y n
  · exact BitVec.ushiftRight_or_distrib x y n
  · exact BitVec.sshiftRight_or_distrib x y n
  · exact BitVec.shiftLeft_xor_distrib x y n
  · exact BitVec.ushiftRight_xor_distrib x y n
  · exact BitVec.sshiftRight_xor_distrib x y n

end Bits

/-! ## Pairs of operations -/

def Sides (insn : Instruction) (p1 p2 : Pseudo) : Prop :=
  p1 = insn.src1 ∧ p2 = insn.src2 ∨ p1 = insn.src2 ∧ p2 = insn.src1

section Pairs

variable {graph : Graph} {number : Nat → Nat} {target : Nat} {insn : Instruction}
  {p1 p2 : Pseudo} {reg regr : Nat} {inner defr : Instruction}

theorem mem_src2_of_arity {insn : Instruction} (two : insn.opcode.arity = 2) :
    (.src2, insn.src2) ∈ insn.operands := by
  unfold Instruction.operands
  rw [two]
  exact .tail _ (.head _)

theorem before_sides (wf : graph.WellFormed number) (defined : graph.defs target = some insn)
    (two : insn.opcode.arity = 2) (sides : Sides insn p1 p2) :
    Before number target p1 ∧ Before number target p2 := by
  have first := before_operand wf defined (src1_mem_operands insn)
  have second := before_operand wf defined (mem_src2_of_arity two)
  rcases sides with ⟨rfl, rfl⟩ | ⟨rfl, rfl⟩
  · exact ⟨first, second⟩
  · exact ⟨second, first⟩

section

variable {a b c : Pseudo} (wf : graph.WellFormed number) (defined : graph.defs target = some insn)
  (arity : insn.opcode.arity = 2) (sides : Sides insn p1 p2)
  (found : graph.def? p1 = some (reg, inner)) (foundr : graph.def? p2 = some (regr, defr))
  (once : graph.oneUse regr = true) (two : defr.opcode.arity = 2)
  (first : (∃ slot, (slot, a) ∈ inner.operands) ∧ ∃ slot, (slot, c) ∈ inner.operands)
  (second : ∃ slot, (slot, b) ∈ defr.operands)
include wf defined arity sides found foundr once two first second

theorem movedEdit_swapInsn :
    MovedEdit graph (swapInsn graph target insn regr defr a b c) number target regr
        { insn with opcode := defr.opcode, src1 := .reg regr, src2 := c }
        { defr with opcode := insn.opcode, src1 := a, src2 := b } ∧ c ≠ .reg regr := by
  obtain ⟨before, beforer⟩ := before_sides wf defined arity sides
  obtain ⟨rfl, definedReg⟩ := def?_eq_some found
  obtain ⟨rfl, definedr⟩ := def?_eq_some foundr
  have less := before reg rfl
  have lessr := beforer regr rfl
  have distinct : target ≠ regr := by
    rintro rfl
    exact lt_irrefl _ lessr
  -- The only use of the second definition is the operand of the target.
  have used : ∃ slot, (target, slot) ∈ graph.users regr := by
    rcases sides with ⟨-, same⟩ | ⟨-, same⟩
    · exact ⟨_, wf.used target insn defined .src2 regr (same ▸ mem_src2_of_arity arity)⟩
    · exact ⟨_, wf.used target insn defined .src1 regr (same ▸ src1_mem_operands insn)⟩
  obtain ⟨slot, use⟩ := used
  have free : ∀ {slot' pseudo}, (slot', pseudo) ∈ inner.operands → pseudo ≠ .reg regr := by
    rintro slot' pseudo member rfl
    have other := wf.used reg inner definedReg slot' regr member
    have same := congrArg Prod.fst (eq_of_oneUse once use other)
    exact absurd less (by rw [show reg = target from same]; exact lt_irrefl _)
  have earlier : ∀ {slot' pseudo}, (slot', pseudo) ∈ inner.operands →
      Before number target pseudo :=
    fun member nr here => (before_operand wf definedReg member nr here).trans less
  obtain ⟨⟨slotA, memberA⟩, slotC, memberC⟩ := first
  obtain ⟨slotB, memberB⟩ := second
  refine ⟨?_, free memberC⟩
  exact
    { outer := Function.update_self ..
      inner := (Function.update_of_ne distinct.symm ..).trans (Function.update_self ..)
      kept := fun other notTarget notReg =>
        (Function.update_of_ne notTarget ..).trans (Function.update_of_ne notReg ..)
      defined := ⟨by rw [defined]; exact Option.some_ne_none _,
        by rw [definedr]; exact Option.some_ne_none _⟩
      before := lessr
      alone := fun other member => by rw [eq_of_oneUse once use member]
      operands := by
        intro slot' pseudo member
        unfold Instruction.operands at member
        rw [two] at member
        rcases List.mem_pair.mp member with here | here
        · cases here
          exact beforer
        · cases here
          exact earlier memberC
      operandsDef := by
        intro slot' pseudo member
        unfold Instruction.operands at member
        rw [arity] at member
        rcases List.mem_pair.mp member with here | here
        · cases here
          exact ⟨earlier memberA, free memberA⟩
        · cases here
          have own := before_operand wf definedr memberB
          refine ⟨fun nr same => (own nr same).trans lessr, fun same => ?_⟩
          exact lt_irrefl _ (own regr same) }

/-- The pair has to compute what the target computed. -/
theorem keeps_factor
    (same : ∀ env, Evaluates graph.defs env → ∀ v v',
      { insn with opcode := defr.opcode, src1 := .reg regr, src2 := c }.eval
        ({ defr with opcode := insn.opcode, src1 := a, src2 := b }.eval (env a) (env b) v')
        (env c) v = env (.reg target)) :
    KeepsTarget graph target insn
      ((SideRule.factor regr defr a b c).apply graph target insn) := by
  obtain ⟨edit, other⟩ :=
    movedEdit_swapInsn wf defined arity sides found foundr once two first second
  refine (edit.keepsAs_iff wf).mpr fun env evaluates => ?_
  have value := same env evaluates
    (afterEdit env regr { defr with opcode := insn.opcode, src1 := a, src2 := b } insn.src3)
    (env defr.src3)
  dsimp only at value ⊢
  rw [afterEdit_self, afterEdit_of_ne _ _ other, value]

end

theorem oneUse_of_canMoveTo {src : Pseudo} (movable : graph.canMoveTo src regr = true) :
    graph.oneUse regr = true :=
  (Bool.and_eq_true_iff.mp movable).1

/-- The three patterns of a common operand, for a product that does not depend on the order of
its factors. -/
theorem keeps_commonRule (wf : graph.WellFormed number) (defined : graph.defs target = some insn)
    (arity : insn.opcode.arity = 2) (sides : Sides insn p1 p2)
    (found : graph.def? p1 = some (reg, inner)) (foundr : graph.def? p2 = some (regr, defr))
    (two : inner.opcode.arity = 2 ∧ defr.opcode.arity = 2)
    {product : (Pseudo → Nat) → Pseudo → Pseudo → Pseudo → Prop}
    (comm : ∀ {env a c p}, product env a c p → product env c a p)
    (left : ∀ {env}, Evaluates graph.defs env → product env inner.src1 inner.src2 p1)
    (right : ∀ {env}, Evaluates graph.defs env → product env defr.src1 defr.src2 p2)
    (value : ∀ {env}, Evaluates graph.defs env → ∀ {a b c}, product env a c p1 →
      product env b c p2 → ∀ v v',
        { insn with opcode := defr.opcode, src1 := .reg regr, src2 := c }.eval
            ({ defr with opcode := insn.opcode, src1 := a, src2 := b }.eval (env a) (env b) v')
            (env c) v = env (.reg target)) :
    KeepsTarget graph target insn
      ((commonRule graph inner regr defr).apply graph target insn) := by
  have first := src1_mem_operands inner
  have second := mem_src2_of_arity two.1
  have firstr := src1_mem_operands defr
  have secondr := mem_src2_of_arity two.2
  unfold commonRule
  split_ifs with bothSecond bothFirst crossed
  · obtain ⟨same, movable⟩ := bothSecond
    refine keeps_factor wf defined arity sides found foundr (oneUse_of_canMoveTo movable) two.2
      ⟨⟨_, first⟩, _, second⟩ ⟨_, firstr⟩ fun env evaluates => ?_
    exact value evaluates (left evaluates) (same ▸ right evaluates)
  · obtain ⟨same, movable⟩ := bothFirst
    refine keeps_factor wf defined arity sides found foundr (oneUse_of_canMoveTo movable) two.2
      ⟨⟨_, second⟩, _, first⟩ ⟨_, secondr⟩ fun env evaluates => ?_
    exact value evaluates (comm (left evaluates)) (comm (same ▸ right evaluates))
  · obtain ⟨same, movable⟩ := crossed
    refine keeps_factor wf defined arity sides found foundr (oneUse_of_canMoveTo movable) two.2
      ⟨⟨_, first⟩, _, second⟩ ⟨_, secondr⟩ fun env evaluates => ?_
    exact value evaluates (left evaluates) (comm (same ▸ right evaluates))
  · exact ⟨fun _ _ changed => absurd rfl changed,
      fun env evaluates => ⟨env, evaluates, ⟨fun _ => rfl, fun _ _ => rfl⟩, rfl⟩⟩

end Pairs

/-! ## The operands -/

/-- An operation on bits in well-formed code.  The operands have the width of the operation,
and a value is compared at its own width. -/
structure BitOperation (graph : Graph) (number : Nat → Nat) (target : Nat)
    (insn : Instruction) : Prop where
  wf : graph.WellFormed number
  defined : graph.defs target = some insn
  kind : insn.opcode.IsBits
  width : 0 < insn.size ∧ insn.size ≤ 64
  operand : ∀ pseudo, pseudo = insn.src1 ∨ pseudo = insn.src2 → ∀ reg inner,
    graph.def? pseudo = some (reg, inner) → inner.size = insn.size ∧
      (inner.opcode.isCompare = true → (0 < inner.itype ∧ inner.itype ≤ 64) ∧
        ∀ value, inner.src2 = .val value → value.toNat < 2 ^ inner.itype)
  sameWidth : ∀ reg inner reg' inner', graph.def? insn.src1 = some (reg, inner) →
    graph.def? insn.src2 = some (reg', inner') → inner.opcode.isCompare = true →
      inner'.opcode.isCompare = true → inner.src1 = inner'.src1 → inner.src2 = inner'.src2 →
        inner.itype = inner'.itype

namespace BitOperation

variable {graph : Graph} {number : Nat → Nat} {target : Nat} {insn : Instruction}
  {p1 p2 : Pseudo} {reg regr : Nat} {inner defr : Instruction} {env : Pseudo → Nat}

theorem arity (typed : BitOperation graph number target insn) : insn.opcode.arity = 2 := by
  rcases typed.kind with kind | kind | kind <;> rw [kind] <;> rfl

section

variable (typed : BitOperation graph number target insn) (sides : Sides insn p1 p2)
include typed sides

theorem before_side :
    Before number target p1 ∧ Before number target p2 :=
  before_sides typed.wf typed.defined typed.arity sides

/-- The value of the operation, with its operands in any order. -/
theorem value_eq (evaluates : Evaluates graph.defs env) :
    env (.reg target) = (insn.opcode.bits (BitVec.ofNat insn.size (env p1))
      (BitVec.ofNat insn.size (env p2))).toNat := by
  rw [evaluates.defined target insn typed.defined, eval_bits typed.kind]
  rcases sides with ⟨rfl, rfl⟩ | ⟨rfl, rfl⟩
  · rfl
  · rw [bits_comm typed.kind]

theorem size_eq (found : graph.def? p1 = some (reg, inner)) : inner.size = insn.size := by
  refine (typed.operand p1 ?_ reg inner found).1
  rcases sides with ⟨first, -⟩ | ⟨first, -⟩
  · exact Or.inl first
  · exact Or.inr first

end

theorem Sides.symm (sides : Sides insn p1 p2) : Sides insn p2 p1 := by
  rcases sides with ⟨first, second⟩ | ⟨first, second⟩
  · exact Or.inr ⟨second, first⟩
  · exact Or.inl ⟨second, first⟩

theorem value_of_def (found : graph.def? p1 = some (reg, inner))
    (evaluates : Evaluates graph.defs env) :
    env p1 = inner.eval (env inner.src1) (env inner.src2) (env inner.src3) := by
  obtain ⟨rfl, defined⟩ := def?_eq_some found
  exact evaluates.defined reg inner defined

/-- Nothing is changed. -/
theorem keeps_none : KeepsTarget graph target insn ⟨graph, .reg target⟩ :=
  ⟨fun _ _ changed => absurd rfl changed,
    fun env evaluates => ⟨env, evaluates, ⟨fun _ => rfl, fun _ _ => rfl⟩, rfl⟩⟩

/-! ## Constants -/

/-- The target is replaced by a constant of its width. -/
theorem keeps_constant (typed : BitOperation graph number target insn) (sides : Sides insn p1 p2)
    {value : BitVec 64}
    (same : ∀ env, Evaluates graph.defs env → BitVec.ofNat insn.size value.toNat =
      insn.opcode.bits (BitVec.ofNat insn.size (env p1)) (BitVec.ofNat insn.size (env p2))) :
    KeepsTarget graph target insn ⟨graph, .val value⟩ := by
  refine (keepsAs_replace_iff typed.wf (before_val value)).mpr fun env evaluates => ?_
  rw [evaluates.constant, typed.value_eq sides evaluates, ← same env evaluates,
    BitVec.toNat_ofNat, Nat.mod_mod]

theorem keeps_complement (typed : BitOperation graph number target insn)
    (sides : Sides insn p1 p2) (found : graph.def? p1 = some (reg, inner))
    (kind : inner.opcode = .not) (same : inner.src1 = p2) :
    KeepsTarget graph target insn
      ⟨graph, .val (if insn.opcode = .and then 0 else bitsMask insn.size)⟩ := by
  refine typed.keeps_constant sides fun env evaluates => ?_
  have size := typed.size_eq sides found
  have value : BitVec.ofNat insn.size (env p1) = ~~~BitVec.ofNat insn.size (env p2) := by
    rw [value_of_def found evaluates, same, ← size]
    unfold Instruction.eval
    rw [kind]
    exact ofNat_toNat_self _
  have mask : BitVec.ofNat insn.size (bitsMask insn.size).toNat = BitVec.allOnes insn.size := by
    apply BitVec.eq_of_toNat_eq
    rw [BitVec.toNat_ofNat, toNat_bitsMask typed.width.1 typed.width.2, BitVec.toNat_allOnes]
    exact Nat.mod_eq_of_lt (Nat.sub_lt (Nat.two_pow_pos _) (by decide))
  rw [value]
  rcases typed.kind with kind | kind | kind
  · rw [kind, if_pos rfl]
    exact (BitVec.and_comm _ _).trans (BitVec.and_not_self _) |>.symm
  · rw [kind, if_neg (by decide), mask]
    exact ((BitVec.or_comm _ _).trans (BitVec.or_not_self _)).symm
  · rw [kind, if_neg (by decide), mask]
    change _ = ~~~_ ^^^ _
    rw [← BitVec.allOnes_xor, BitVec.xor_assoc, BitVec.xor_self, BitVec.xor_zero]

/-- The operation on two truth values that are opposite to each other. -/
theorem bits_opposite {opcode : Opcode} (kind : opcode.IsBits) {w a b : Nat}
    (opposite : a = 1 ∧ b = 0 ∨ a = 0 ∧ b = 1) :
    opcode.bits (BitVec.ofNat w a) (BitVec.ofNat w b) =
      BitVec.ofNat w (if opcode = .and then 0 else 1) := by
  rcases kind with rfl | rfl | rfl <;> rcases opposite with ⟨rfl, rfl⟩ | ⟨rfl, rfl⟩
  · exact BitVec.and_zero
  · exact BitVec.zero_and
  · exact BitVec.or_zero
  · exact BitVec.zero_or
  · exact BitVec.xor_zero
  · exact BitVec.zero_xor

section

variable (typed : BitOperation graph number target insn) (sides : Sides insn p1 p2)
  (found : graph.def? p1 = some (reg, inner))
include typed sides found

theorem compare_width (foundr : graph.def? p2 = some (regr, defr))
    (compare : inner.opcode.isCompare = true) (comparer : defr.opcode.isCompare = true)
    (src1 : inner.src1 = defr.src1) (src2 : inner.src2 = defr.src2) : inner.itype = defr.itype := by
  rcases sides with ⟨rfl, rfl⟩ | ⟨rfl, rfl⟩
  · exact typed.sameWidth reg inner regr defr found foundr compare comparer src1 src2
  · exact (typed.sameWidth regr defr reg inner foundr found comparer compare src1.symm
      src2.symm).symm

theorem compare_shape (compare : inner.opcode.isCompare = true) :
    (0 < inner.itype ∧ inner.itype ≤ 64) ∧
      ∀ value, inner.src2 = .val value → value.toNat < 2 ^ inner.itype := by
  refine (typed.operand p1 ?_ reg inner found).2 compare
  rcases sides with ⟨first, -⟩ | ⟨first, -⟩
  · exact Or.inl first
  · exact Or.inr first

theorem keeps_negation (foundr : graph.def? p2 = some (regr, defr))
    (compare : inner.opcode.isCompare = true) (negate : inner.opcode.negate = some defr.opcode)
    (src1 : inner.src1 = defr.src1) (src2 : inner.src2 = defr.src2) :
    KeepsTarget graph target insn ⟨graph, .val (if insn.opcode = .and then 0 else 1)⟩ := by
  have opcode : defr.opcode = inner.opcode.opposite := by
    unfold Opcode.opposite
    rw [negate]
    rfl
  have comparer : defr.opcode.isCompare = true := opcode ▸ isCompare_opposite compare
  have itype := typed.compare_width sides found foundr compare comparer src1 src2
  have pos := (typed.compare_shape sides found compare).1.1
  refine typed.keeps_constant sides fun env evaluates => ?_
  have left := eval_compare compare pos (env inner.src1) (env inner.src2) (env inner.src3)
  have right := eval_compare comparer (itype ▸ pos) (env defr.src1) (env defr.src2) (env defr.src3)
  rw [← value_of_def found evaluates] at left
  rw [← value_of_def foundr evaluates, opcode, holds_opposite compare, ← itype, ← src1,
    ← src2] at right
  have opposite : env p1 = 1 ∧ env p2 = 0 ∨ env p1 = 0 ∧ env p2 = 1 := by
    by_cases yes : inner.opcode.Holds (2 ^ (inner.itype - 1)) (env inner.src1 % 2 ^ inner.itype)
      (env inner.src2 % 2 ^ inner.itype)
    · exact Or.inl ⟨left.1 yes, right.2 (not_not.mpr yes)⟩
    · exact Or.inr ⟨left.2 yes, right.1 yes⟩
  rw [bits_opposite typed.kind opposite]
  split_ifs <;> rfl

end

section

variable (typed : BitOperation graph number target insn) (sides : Sides insn p1 p2)
  (found : graph.def? p1 = some (reg, inner))
include typed sides found

theorem keeps_factor_bits (foundr : graph.def? p2 = some (regr, defr))
    (once : graph.oneUse regr = true) {a b c : Pseudo} (two : defr.opcode.arity = 2)
    (first : (∃ slot, (slot, a) ∈ inner.operands) ∧ ∃ slot, (slot, c) ∈ inner.operands)
    (second : ∃ slot, (slot, b) ∈ defr.operands)
    (same : ∀ env, Evaluates graph.defs env → ∀ v,
      { insn with opcode := defr.opcode, src1 := .reg regr, src2 := c }.eval
        (insn.opcode.bits (BitVec.ofNat insn.size (env a)) (BitVec.ofNat insn.size (env b))).toNat
        (env c) v = env (.reg target)) :
    KeepsTarget graph target insn
      ((SideRule.factor regr defr a b c).apply graph target insn) := by
  refine keeps_factor typed.wf typed.defined typed.arity sides found foundr once two first second ?_
  intro env evaluates v v'
  have moved := @eval_bits { defr with opcode := insn.opcode, src1 := a, src2 := b } typed.kind
    (env a) (env b) v'
  dsimp only at moved
  rw [moved, typed.size_eq (Sides.symm sides) foundr]
  exact same env evaluates v

theorem operand_bits (kind : inner.opcode.IsBits) (evaluates : Evaluates graph.defs env) :
    BitVec.ofNat insn.size (env p1) =
      inner.opcode.bits (BitVec.ofNat insn.size (env inner.src1))
        (BitVec.ofNat insn.size (env inner.src2)) := by
  rw [value_of_def found evaluates, eval_bits kind, typed.size_eq sides found]
  exact ofNat_toNat_self _

theorem operand_shift (kind : inner.opcode.IsShift) (evaluates : Evaluates graph.defs env) :
    BitVec.ofNat insn.size (env p1) =
      inner.opcode.shift (BitVec.ofNat insn.size (env inner.src1)) (env inner.src2) := by
  rw [value_of_def found evaluates, eval_shift kind, typed.size_eq sides found]
  exact ofNat_toNat_self _

end

theorem src2_mem_operands {insn : Instruction} (two : insn.opcode.arity = 2) :
    (.src2, insn.src2) ∈ insn.operands :=
  mem_src2_of_arity two

section

variable (typed : BitOperation graph number target insn) (sides : Sides insn p1 p2)
  (found : graph.def? p1 = some (reg, inner)) (foundr : graph.def? p2 = some (regr, defr))
include typed sides found foundr

theorem keeps_commonRule_bits {common : Opcode} (opcode : inner.opcode = common)
    (opcoder : defr.opcode = common)
    (pair : insn.opcode = .and ∧ common = .or ∨ (insn.opcode = .or ∨ insn.opcode = .xor) ∧
      common = .and) :
    KeepsTarget graph target insn
      ((commonRule graph inner regr defr).apply graph target insn) := by
  have bits : common.IsBits := by
    rcases pair with ⟨-, rfl⟩ | ⟨-, rfl⟩
    · exact Or.inr (Or.inl rfl)
    · exact Or.inl rfl
  have two : inner.opcode.arity = 2 ∧ defr.opcode.arity = 2 := by
    rw [opcode, opcoder]
    rcases pair with ⟨-, rfl⟩ | ⟨-, rfl⟩ <;> exact ⟨rfl, rfl⟩
  refine @keeps_commonRule _ _ _ _ _ _ _ _ _ _ typed.wf typed.defined typed.arity sides found
    foundr two (fun env a c p => common.bits (BitVec.ofNat insn.size (env a))
      (BitVec.ofNat insn.size (env c)) = BitVec.ofNat insn.size (env p)) ?_ ?_ ?_ ?_
  · exact fun product => (bits_comm bits _ _).trans product
  · intro env evaluates
    rw [typed.operand_bits sides found (opcode ▸ bits) evaluates, opcode]
  · intro env evaluates
    rw [typed.operand_bits (Sides.symm sides) foundr (opcoder ▸ bits) evaluates, opcoder]
  · intro env evaluates a b c left right v v'
    have moved := @eval_bits { defr with opcode := insn.opcode, src1 := a, src2 := b } typed.kind
      (env a) (env b) v'
    dsimp only at moved
    rw [moved, eval_bits (by rw [opcoder]; exact bits), typed.value_eq sides evaluates, ← left,
      ← right, ← bits_factor pair, opcoder, typed.size_eq (Sides.symm sides) foundr]
    dsimp only
    rw [ofNat_toNat_self]

theorem keeps_shiftPairRule (shift : inner.opcode.IsShift) :
    KeepsTarget graph target insn
      ((shiftPairRule graph inner regr defr).apply graph target insn) := by
  unfold shiftPairRule
  split_ifs with fits
  · obtain ⟨opcode, count, movable⟩ := fits
    have shiftr : defr.opcode.IsShift := opcode ▸ shift
    have two : inner.opcode.arity = 2 := by
      rcases shift with kind | kind | kind <;> rw [kind] <;> rfl
    refine typed.keeps_factor_bits sides found foundr (oneUse_of_canMoveTo movable)
      (opcode ▸ two) ⟨⟨_, src1_mem_operands inner⟩, _, src2_mem_operands two⟩
      ⟨_, src1_mem_operands defr⟩ fun env evaluates v => ?_
    rw [eval_shift (by exact shiftr), typed.value_eq sides evaluates,
      typed.operand_shift sides found shift evaluates,
      typed.operand_shift (Sides.symm sides) foundr shiftr evaluates, opcode, count,
      ← shift_factor typed.kind shift]
    dsimp only
    rw [ofNat_toNat_self]
  · exact keeps_none

end

def SharedCases (insn : Instruction) (common : Opcode) (complement negation : BitVec 64) : Prop :=
  insn.opcode = .and ∧ common = .or ∧ complement = 0 ∧ negation = 0 ∨
    (insn.opcode = .or ∨ insn.opcode = .xor) ∧ common = .and ∧ complement = bitsMask insn.size ∧
      negation = 1

theorem keeps_bitsOneSide (typed : BitOperation graph number target insn)
    (sides : Sides insn p1 p2) {common : Opcode} {complement negation : BitVec 64}
    (shared : SharedCases insn common complement negation) :
    KeepsTarget graph target insn
      ((bitsOneSide graph common complement negation p1 p2).apply graph target insn) := by
  have values : complement = (if insn.opcode = .and then 0 else bitsMask insn.size) ∧
      negation = if insn.opcode = .and then 0 else 1 := by
    rcases shared with ⟨kind, -, rfl, rfl⟩ | ⟨kind | kind, -, rfl, rfl⟩ <;> rw [kind] <;>
      exact ⟨rfl, rfl⟩
  have pair : insn.opcode = .and ∧ common = .or ∨
      (insn.opcode = .or ∨ insn.opcode = .xor) ∧ common = .and := by
    rcases shared with ⟨kind, rfl, -⟩ | ⟨kind, rfl, -⟩
    · exact Or.inl ⟨kind, rfl⟩
    · exact Or.inr ⟨kind, rfl⟩
  unfold bitsOneSide
  cases found : graph.def? p1 with
  | none => exact keeps_none
  | some def1 =>
    obtain ⟨reg, inner⟩ := def1
    dsimp only
    by_cases complemented : inner.opcode = .not
    · rw [if_pos complemented]
      split_ifs with same
      · rw [values.1]
        exact typed.keeps_complement sides found complemented same
      · exact keeps_none
    · rw [if_neg complemented]
      cases foundr : graph.def? p2 with
      | none => exact keeps_none
      | some def2 =>
        obtain ⟨regr, defr⟩ := def2
        dsimp only
        split_ifs with compare negated opcode opcoder shift
        · rw [values.2]
          exact typed.keeps_negation sides found foundr compare negated.1 negated.2.1 negated.2.2
        · exact keeps_none
        · exact typed.keeps_commonRule_bits sides found foundr opcode opcoder pair
        · exact keeps_none
        · exact typed.keeps_shiftPairRule sides found foundr shift
        · exact keeps_none

/-! ## Range checks -/

theorem and_truth_self (w : Nat) :
    (Opcode.and.bits (BitVec.ofNat w 1) (BitVec.ofNat w 1)).toNat % 2 ^ w = 1 % 2 ^ w := by
  change (BitVec.ofNat w 1 &&& BitVec.ofNat w 1).toNat % _ = _
  rw [BitVec.and_self, BitVec.toNat_ofNat, Nat.mod_mod]

theorem zero_and_truth (w n : Nat) :
    (Opcode.and.bits (BitVec.ofNat w 0) (BitVec.ofNat w n)).toNat % 2 ^ w = 0 % 2 ^ w := by
  change (BitVec.ofNat w 0 &&& BitVec.ofNat w n).toNat % _ = _
  rw [show BitVec.ofNat w 0 = 0#w from rfl, BitVec.zero_and, BitVec.toNat_ofNat, Nat.mod_mod]

theorem and_zero_truth (w n : Nat) :
    (Opcode.and.bits (BitVec.ofNat w n) (BitVec.ofNat w 0)).toNat % 2 ^ w = 0 % 2 ^ w := by
  rw [bits_comm (Or.inl rfl), zero_and_truth]

/-- The operands are `x >= 0` and `y <= C`, in some order, for a constant that is not
negative. -/
def RangeCheck (graph : Graph) (insn inner defr : Instruction) : Prop :=
  insn.opcode = .and ∧ (inner.opcode = .setGe ∧ inner.src2.isZero = true) ∧
    (defr.opcode = .setLe ∧ defr.src2.isPositive defr.itype = true) ∧
    ∃ p1 p2 reg regr, Sides insn p1 p2 ∧ graph.def? p1 = some (reg, inner) ∧
      graph.def? p2 = some (regr, defr)

def SignsAgree (inner defr : Instruction) (env : Pseudo → Nat) : Prop :=
  (BitVec.ofNat defr.itype (env defr.src1)).toInt ≤
      (BitVec.ofNat defr.itype (env defr.src2)).toInt →
    (0 ≤ (BitVec.ofNat inner.itype (env inner.src1)).toInt ↔
      0 ≤ (BitVec.ofNat defr.itype (env defr.src1)).toInt)

theorem keeps_range_iff (typed : BitOperation graph number target insn) (sides : Sides insn p1 p2)
    (found : graph.def? p1 = some (reg, inner)) (foundr : graph.def? p2 = some (regr, defr))
    (opcode : insn.opcode = .and) (least : inner.opcode = .setGe ∧ inner.src2.isZero = true)
    (most : defr.opcode = .setLe ∧ defr.src2.isPositive defr.itype = true) :
    KeepsTarget graph target insn ((SideRule.range defr).apply graph target insn) ↔
      ∀ env, Evaluates graph.defs env → SignsAgree inner defr env := by
  have compare : inner.opcode.isCompare = true := by rw [least.1]; rfl
  have comparer : defr.opcode.isCompare = true := by rw [most.1]; rfl
  obtain ⟨⟨pos, -⟩, -⟩ := typed.compare_shape sides found compare
  obtain ⟨⟨posr, ler⟩, reducedr⟩ := typed.compare_shape (Sides.symm sides) foundr comparer
  obtain ⟨rfl, definedr⟩ := def?_eq_some foundr
  have zero := eq_val_of_isZero least.2
  obtain ⟨limit, constant⟩ : ∃ limit, defr.src2 = .val limit := by
    cases shape : defr.src2 with
    | val limit => exact ⟨limit, rfl⟩
    | reg nr =>
      rw [shape] at most
      cases most.2
    | arg nr =>
      rw [shape] at most
      cases most.2
  have small := reducedr limit constant
  have low : limit.toNat < 2 ^ (defr.itype - 1) := by
    have positive := most.2
    rw [constant] at positive
    exact (and_signBit_eq_zero_iff posr ler small).mp (eq_of_beq positive)
  have before : ∀ {slot pseudo}, (slot, pseudo) ∈ defr.operands → Before number target pseudo :=
    fun member nr here => (before_operand typed.wf definedr member nr here).trans
      ((typed.before_side sides).2 regr rfl)
  have second : (.src2, defr.src2) ∈ defr.operands := src2_mem_operands (by rw [most.1]; rfl)
  refine (keepsAs_target_iff typed.wf typed.defined ?_).trans
    (forall₂_congr fun env evaluates => ?_)
  · exact ConstantCompare.before_of_compare rfl (before (src1_mem_operands defr)) (before second)
  have double := two_pow_pred posr
  have bound := Nat.mod_lt (env defr.src1) (Nat.two_pow_pos defr.itype)
  have left := eval_compare compare pos (env inner.src1) (env inner.src2) (env inner.src3)
  have right := eval_compare comparer posr (env defr.src1) (env defr.src2) (env defr.src3)
  rw [← value_of_def found evaluates, least.1, zero, evaluates.constant] at left
  rw [← value_of_def foundr evaluates, most.1] at right
  have limited : env defr.src2 % 2 ^ defr.itype = limit.toNat := by
    rw [constant, evaluates.constant, Nat.mod_eq_of_lt small]
  have fresh := @eval_compare
    { insn with opcode := .setBe, itype := defr.itype, src1 := defr.src1, src2 := defr.src2 }
    rfl posr (env defr.src1) (env defr.src2) (env insn.src3)
  unfold SignsAgree
  rw [toInt_ofNat_eq posr, toInt_ofNat_eq posr, toInt_ofNat_eq pos]
  rw [limited] at right ⊢
  dsimp only at fresh ⊢
  rw [limited] at fresh
  have nought : signedNumber (2 ^ (inner.itype - 1))
      ((0 : BitVec 64).toNat % 2 ^ inner.itype) = 0 := by
    rw [show (0 : BitVec 64).toNat = 0 from rfl, Nat.zero_mod, signedNumber_of_lt (half_pos _)]
    rfl
  dsimp only [Opcode.Holds] at left right fresh
  rw [nought] at left
  -- The unsigned comparison asks for both.
  have both : env defr.src1 % 2 ^ defr.itype ≤ limit.toNat ↔
      0 ≤ signedNumber (2 ^ (defr.itype - 1)) (env defr.src1 % 2 ^ defr.itype) ∧
        signedNumber (2 ^ (defr.itype - 1)) (env defr.src1 % 2 ^ defr.itype) ≤
          signedNumber (2 ^ (defr.itype - 1)) limit.toNat := by
    rw [signedNumber_of_lt low]
    unfold signedNumber
    split_ifs <;> omega
  rw [both] at fresh
  rw [typed.value_eq sides evaluates, opcode]
  have two : 1 < 2 ^ insn.size := Nat.one_lt_two_pow typed.width.1.ne'
  by_cases holds : signedNumber (2 ^ (defr.itype - 1)) (env defr.src1 % 2 ^ defr.itype) ≤
      signedNumber (2 ^ (defr.itype - 1)) limit.toNat
  · rw [right.1 holds]
    by_cases signx : signedNumber (2 ^ (inner.itype - 1)) (env inner.src1 % 2 ^ inner.itype) ≥ 0 <;>
      by_cases signy : 0 ≤ signedNumber (2 ^ (defr.itype - 1)) (env defr.src1 % 2 ^ defr.itype)
    · rw [left.1 signx, fresh.1 ⟨signy, holds⟩, and_truth_self]
      exact iff_of_true rfl fun _ => iff_of_true signx signy
    · rw [left.1 signx, fresh.2 (fun yes => signy yes.1), and_truth_self, Nat.zero_mod,
        Nat.mod_eq_of_lt two]
      exact iff_of_false (by decide) fun agree => signy ((agree holds).mp signx)
    · rw [left.2 signx, fresh.1 ⟨signy, holds⟩, zero_and_truth, Nat.zero_mod, Nat.mod_eq_of_lt two]
      exact iff_of_false (by decide) fun agree => signx ((agree holds).mpr signy)
    · rw [left.2 signx, fresh.2 (fun yes => signy yes.1), zero_and_truth]
      exact iff_of_true rfl fun _ => iff_of_false signx signy
  · rw [right.2 holds, fresh.2 (fun yes => holds yes.2), and_zero_truth]
    exact iff_of_true rfl fun yes => absurd yes holds

def RangeSide (graph : Graph) (p1 p2 : Pseudo) (inner defr : Instruction) : Prop :=
  (inner.opcode = .setGe ∧ inner.src2.isZero = true) ∧
    (defr.opcode = .setLe ∧ defr.src2.isPositive defr.itype = true) ∧
    ∃ reg regr, graph.def? p1 = some (reg, inner) ∧ graph.def? p2 = some (regr, defr)

theorem rangeRule_cases (graph : Graph) (p1 p2 : Pseudo) :
    (∃ inner defr, RangeSide graph p1 p2 inner defr ∧ rangeRule graph p1 p2 = .range defr) ∨
      (∀ inner defr, ¬RangeSide graph p1 p2 inner defr) ∧ rangeRule graph p1 p2 = .none := by
  unfold rangeRule
  cases found : graph.def? p1 with
  | none =>
    refine Or.inr ⟨?_, rfl⟩
    rintro inner defr ⟨-, -, reg, regr, here, -⟩
    cases found.symm.trans here
  | some def1 =>
    obtain ⟨reg, inner⟩ := def1
    cases foundr : graph.def? p2 with
    | none =>
      refine Or.inr ⟨?_, rfl⟩
      rintro inner' defr ⟨-, -, reg', regr, -, here⟩
      cases foundr.symm.trans here
    | some def2 =>
      obtain ⟨regr, defr⟩ := def2
      dsimp only
      split_ifs with fits
      · exact Or.inl ⟨inner, defr, ⟨fits.1, fits.2, reg, regr, found, foundr⟩, rfl⟩
      · refine Or.inr ⟨?_, rfl⟩
        rintro inner' defr' ⟨least, most, reg', regr', here, herer⟩
        cases found.symm.trans here
        cases foundr.symm.trans herer
        exact fits ⟨least, most⟩

section

variable {graph : Graph} {p1 p2 : Pseudo} {inner defr : Instruction}
  (check : RangeSide graph p1 p2 inner defr)
include check

/-- A range check is not a complement, a negated comparison or a pair with a common operand,
in any order of the operands. -/
theorem bitsOneSide_of_rangeSide (complement negation : BitVec 64) :
    bitsOneSide graph .or complement negation p1 p2 = .none ∧
      bitsOneSide graph .or complement negation p2 p1 = .none := by
  obtain ⟨⟨least, -⟩, ⟨most, -⟩, reg, regr, found, foundr⟩ := check
  unfold bitsOneSide
  rw [found, foundr]
  dsimp only
  rw [least, most]
  exact ⟨rfl, rfl⟩

/-- A range check in one order is none in the other one. -/
theorem rangeRule_symm_of_rangeSide : rangeRule graph p2 p1 = .none := by
  obtain ⟨⟨least, -⟩, ⟨most, -⟩, reg, regr, found, foundr⟩ := check
  unfold rangeRule
  rw [found, foundr]
  dsimp only
  rw [most]
  exact if_neg fun fits => by cases fits.1.1

end

theorem rangeCheck_iff (opcode : insn.opcode = .and) :
    RangeCheck graph insn inner defr ↔ RangeSide graph insn.src1 insn.src2 inner defr ∨
      RangeSide graph insn.src2 insn.src1 inner defr := by
  constructor
  · rintro ⟨-, least, most, p1, p2, reg, regr, ⟨rfl, rfl⟩ | ⟨rfl, rfl⟩, found⟩
    · exact Or.inl ⟨least, most, reg, regr, found⟩
    · exact Or.inr ⟨least, most, reg, regr, found⟩
  · rintro (⟨least, most, reg, regr, found⟩ | ⟨least, most, reg, regr, found⟩)
    · exact ⟨opcode, least, most, _, _, reg, regr, Or.inl ⟨rfl, rfl⟩, found⟩
    · exact ⟨opcode, least, most, _, _, reg, regr, Or.inr ⟨rfl, rfl⟩, found⟩

theorem RangeSide.unique {inner' defr' : Instruction} (check : RangeSide graph p1 p2 inner defr)
    (check' : RangeSide graph p1 p2 inner' defr') : inner' = inner ∧ defr' = defr := by
  obtain ⟨-, -, reg, regr, found, foundr⟩ := check
  obtain ⟨-, -, reg', regr', found', foundr'⟩ := check'
  cases found.symm.trans found'
  cases foundr.symm.trans foundr'
  exact ⟨rfl, rfl⟩

/-- One operand order of `simplify_and` finds a range check. -/
theorem keeps_and_of_rangeSide (typed : BitOperation graph number target insn)
    (opcode : insn.opcode = .and) (sides : Sides insn p1 p2)
    (check : RangeSide graph p1 p2 inner defr) (rule : sideRule graph insn = .range defr)
    (only : ∀ inner' defr', RangeCheck graph insn inner' defr' → inner' = inner ∧ defr' = defr) :
    KeepsTarget graph target insn (simplifySides graph target insn) ↔
      ∀ inner defr, RangeCheck graph insn inner defr → ∀ env, Evaluates graph.defs env →
        SignsAgree inner defr env := by
  obtain ⟨least, most, reg, regr, found, foundr⟩ := check
  unfold simplifySides
  rw [rule, typed.keeps_range_iff sides found foundr opcode least most]
  constructor
  · intro agree inner' defr' here
    obtain ⟨rfl, rfl⟩ := only inner' defr' here
    exact agree
  · intro agree
    exact agree inner defr ⟨opcode, least, most, p1, p2, reg, regr, sides, found, foundr⟩

theorem keeps_and_iff (typed : BitOperation graph number target insn)
    (opcode : insn.opcode = .and) :
    KeepsTarget graph target insn (simplifySides graph target insn) ↔
      ∀ inner defr, RangeCheck graph insn inner defr → ∀ env, Evaluates graph.defs env →
        SignsAgree inner defr env := by
  have shared : SharedCases insn .or 0 0 := Or.inl ⟨opcode, rfl, rfl, rfl⟩
  have one := typed.keeps_bitsOneSide (Or.inl ⟨rfl, rfl⟩) shared
  have two := typed.keeps_bitsOneSide (Or.inr ⟨rfl, rfl⟩) shared
  have rule : sideRule graph insn =
      ((bitsOneSide graph .or 0 0 insn.src1 insn.src2).orElse
        (rangeRule graph insn.src1 insn.src2)).orElse
      ((bitsOneSide graph .or 0 0 insn.src2 insn.src1).orElse
        (rangeRule graph insn.src2 insn.src1)) := by
    unfold sideRule
    rw [opcode]
    rfl
  rcases rangeRule_cases graph insn.src1 insn.src2 with ⟨inner, defr, check, range⟩ | ⟨none1, range⟩
  · have nothing := bitsOneSide_of_rangeSide check 0 0
    refine typed.keeps_and_of_rangeSide opcode (Or.inl ⟨rfl, rfl⟩) check ?_
      fun inner' defr' here => ?_
    · rw [rule, nothing.1, range]
      rfl
    · rcases (rangeCheck_iff opcode).mp here with side | side
      · exact check.unique side
      · have other := rangeRule_symm_of_rangeSide side
        rw [range] at other
        cases other
  · rcases rangeRule_cases graph insn.src2 insn.src1 with
      ⟨inner, defr, check, range'⟩ | ⟨none2, range'⟩
    · have nothing := bitsOneSide_of_rangeSide check 0 0
      refine typed.keeps_and_of_rangeSide opcode (Or.inr ⟨rfl, rfl⟩) check ?_
        fun inner' defr' here => ?_
      · rw [rule, nothing.1, nothing.2, range, range']
        rfl
      · rcases (rangeCheck_iff opcode).mp here with side | side
        · exact absurd side (none1 inner' defr')
        · exact check.unique side
    · refine iff_of_true ?_ fun inner defr here => ?_
      · unfold simplifySides
        rw [rule, range, range']
        cases first : bitsOneSide graph .or 0 0 insn.src1 insn.src2 with
        | none =>
          cases second : bitsOneSide graph .or 0 0 insn.src2 insn.src1 with
          | none => exact keeps_none
          | _ =>
            rw [second] at two
            exact two
        | _ =>
          rw [first] at one
          exact one
      · rcases (rangeCheck_iff opcode).mp here with side | side
        · exact absurd side (none1 inner defr)
        · exact absurd side (none2 inner defr)

theorem keeps_ior_xor (typed : BitOperation graph number target insn)
    (opcode : insn.opcode = .or ∨ insn.opcode = .xor) :
    KeepsTarget graph target insn (simplifySides graph target insn) := by
  have shared : SharedCases insn .and (bitsMask insn.size) 1 := Or.inr ⟨opcode, rfl, rfl, rfl⟩
  have one := typed.keeps_bitsOneSide (Or.inl ⟨rfl, rfl⟩) shared
  have two := typed.keeps_bitsOneSide (Or.inr ⟨rfl, rfl⟩) shared
  have rule : sideRule graph insn =
      (bitsOneSide graph .and (bitsMask insn.size) 1 insn.src1 insn.src2).orElse
        (bitsOneSide graph .and (bitsMask insn.size) 1 insn.src2 insn.src1) := by
    unfold sideRule
    rcases opcode with opcode | opcode <;> rw [opcode] <;> rfl
  unfold simplifySides
  rw [rule]
  cases first : bitsOneSide graph .and (bitsMask insn.size) 1 insn.src1 insn.src2 with
  | none => exact two
  | _ =>
    rw [first] at one
    exact one

/-- `simplify_and`, `simplify_ior` and `simplify_xor` keep the value of the target exactly when
the two comparisons of every range check agree about the sign. -/
theorem simplifySides_keeps_iff (typed : BitOperation graph number target insn) :
    KeepsTarget graph target insn (simplifySides graph target insn) ↔
      ∀ inner defr, RangeCheck graph insn inner defr → ∀ env, Evaluates graph.defs env →
        SignsAgree inner defr env := by
  rcases typed.kind with opcode | opcode
  · exact typed.keeps_and_iff opcode
  · refine iff_of_true (typed.keeps_ior_xor opcode) fun inner defr check => ?_
    have other := check.1
    rcases opcode with opcode | opcode <;> cases opcode.symm.trans other

end BitOperation

/-! ## `(x >= 0) & (y <= 9)` -/

def notNegative : Instruction := ⟨.setGe, 1, 32, .arg 0, .val 0, .val 0⟩

def atMostNine : Instruction := ⟨.setLe, 1, 32, .arg 1, .val 9, .val 0⟩

def bothCompares : Instruction := ⟨.and, 1, 1, .reg 0, .reg 1, .val 0⟩

def rangeCode : List Instruction := [notNegative, atMostNine, bothCompares]

theorem bitOperation_rangeCode : BitOperation (straightLine rangeCode) id 2 bothCompares where
  wf := wellFormed_straightLine (by decide)
  defined := rfl
  kind := Or.inl rfl
  width := by decide
  operand := by
    rintro pseudo (rfl | rfl) reg inner found
    · cases found
      refine ⟨rfl, fun _ => ⟨by decide, fun value same => ?_⟩⟩
      cases same
      decide
    · cases found
      refine ⟨rfl, fun _ => ⟨by decide, fun value same => ?_⟩⟩
      cases same
      decide
  sameWidth := by
    intro reg inner reg' inner' found found' _ _ same
    cases found
    cases found'
    cases same

theorem simplifySides_keeps_iff_rangeCode :
    BitOperation (straightLine rangeCode) id 2 bothCompares ∧
      (KeepsTarget (straightLine rangeCode) 2 bothCompares
          (simplifySides (straightLine rangeCode) 2 bothCompares) ↔
        ∀ inner defr, BitOperation.RangeCheck (straightLine rangeCode) bothCompares inner defr →
          ∀ env, Evaluates (straightLine rangeCode).defs env →
            BitOperation.SignsAgree inner defr env) :=
  ⟨bitOperation_rangeCode, bitOperation_rangeCode.simplifySides_keeps_iff⟩

/-- For `x = -1` and `y = 5` the conjunction is false, but `y <= 9` without a sign is true. -/
theorem not_keeps_rangeCode :
    BitOperation (straightLine rangeCode) id 2 bothCompares ∧
      ¬KeepsTarget (straightLine rangeCode) 2 bothCompares
        (simplifySides (straightLine rangeCode) 2 bothCompares) := by
  refine ⟨bitOperation_rangeCode, fun keeps => ?_⟩
  have edited : simplifySides (straightLine rangeCode) 2 bothCompares =
      ⟨(straightLine rangeCode).setDef 2 ⟨.setBe, 1, 32, .arg 1, .val 9, .val 0⟩, .reg 2⟩ := rfl
  rw [edited] at keeps
  have always := (keepsAs_target_iff bitOperation_rangeCode.wf bitOperation_rangeCode.defined
    (ConstantCompare.before_of_compare rfl (fun _ here => by cases here) (before_val 9))).mp keeps
  obtain ⟨env, evaluates, leaves⟩ := bitOperation_rangeCode.wf.ordered.exists_evaluates
    fun pseudo => if pseudo = .arg 0 then 2 ^ 32 - 1 else 5
  have x : env (.arg 0) = 2 ^ 32 - 1 := leaves.1 0
  have y : env (.arg 1) = 5 := leaves.1 1
  have left : env (.reg 0) = 0 := by
    rw [evaluates.defined 0 notNegative rfl]
    change notNegative.eval (env (.arg 0)) (env (.val 0)) _ = 0
    rw [x, evaluates.constant]
    rfl
  have outcome : env (.reg 2) = 0 := by
    rw [evaluates.defined 2 bothCompares rfl]
    change bothCompares.eval (env (.reg 0)) (env (.reg 1)) _ = 0
    rw [left]
    exact congrArg BitVec.toNat BitVec.zero_and
  have same := always env evaluates
  rw [outcome] at same
  change Instruction.eval ⟨.setBe, 1, 32, .arg 1, .val 9, .val 0⟩ (env (.arg 1)) (env (.val 9))
    (env (.val 0)) % 2 ^ 1 = 0 % 2 ^ 1 at same
  rw [y, evaluates.constant, evaluates.constant] at same
  exact absurd same (by decide)

end SmatchFormal.Ir
