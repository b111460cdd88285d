import SmatchFormal.Ir.FactorSound
import SmatchFormal.Ir.EvalOp

/-!
# Operands stay defined before their uses

A rewrite that gives an operand of one definition to another one has to keep every
operand defined before its use.  `can_move_to` tests that for one pseudo; two of the
three patterns of a common operand test the common operand and not the one that is
moved.
-/

namespace SmatchFormal.Ir

/-! ## The order of instructions -/

/-- A register that an instruction uses is defined before it: earlier in its block, or in
another block that dominates it. -/
def Graph.Placed (graph : Graph) (user : Nat) (pseudo : Pseudo) : Prop :=
  ∀ reg, pseudo = .reg reg → reg ≠ user ∧ graph.comesBefore reg user = true

def Graph.Dominated (graph : Graph) : Prop :=
  ∀ reg insn, graph.defs reg = some insn → ∀ slot pseudo, (slot, pseudo) ∈ insn.operands →
    graph.Placed reg pseudo

structure Graph.Layout (graph : Graph) : Prop where
  trans : ∀ x y z, graph.dominates x y = true → graph.dominates y z = true →
    graph.dominates x z = true
  antisymm : ∀ x y, graph.dominates x y = true → graph.dominates y x = true → x = y

structure SameLayout (graph graph' : Graph) : Prop where
  bb : graph'.bb = graph.bb
  insns : graph'.insns = graph.insns
  dominates : graph'.dominates = graph.dominates

section Order

variable {graph graph' : Graph} {x y z : Nat}

theorem insnBefore_trans {insns : List Nat} (first : insnBefore insns x y = true)
    (second : insnBefore insns y z = true) : insnBefore insns x z = true := by
  induction insns with
  | nil => cases first
  | cons insn insns ih =>
    unfold insnBefore at first second ⊢
    by_cases atX : insn = x
    · rw [if_pos atX]
    · rw [if_neg atX] at first ⊢
      by_cases atY : insn = y
      · rw [if_pos atY] at first
        cases first
      · rw [if_neg atY] at first second
        by_cases atZ : insn = z
        · rw [if_pos atZ] at second
          cases second
        · rw [if_neg atZ] at second ⊢
          exact ih first second

theorem insnBefore_asymm {insns : List Nat} (different : x ≠ y)
    (first : insnBefore insns x y = true) : insnBefore insns y x = false := by
  induction insns with
  | nil => rfl
  | cons insn insns ih =>
    unfold insnBefore at first ⊢
    by_cases atX : insn = x
    · rw [if_neg fun atY => different (atX.symm.trans atY), if_pos atX]
    · rw [if_neg atX] at first
      by_cases atY : insn = y
      · rw [if_pos atY] at first
        cases first
      · rw [if_neg atY] at first ⊢
        rw [if_neg atX]
        exact ih first

theorem comesBefore_trans (layout : graph.Layout) (different : x ≠ y)
    (first : graph.comesBefore x y = true) (second : graph.comesBefore y z = true) :
    x ≠ z ∧ graph.comesBefore x z = true := by
  unfold Graph.comesBefore at first second ⊢
  by_cases sameXY : graph.bb x = graph.bb y
  · rw [if_pos sameXY] at first
    rw [sameXY]
    rw [sameXY] at first
    by_cases sameYZ : graph.bb y = graph.bb z
    · rw [if_pos sameYZ] at second ⊢
      refine ⟨?_, insnBefore_trans first second⟩
      rintro rfl
      rw [insnBefore_asymm different first] at second
      cases second
    · rw [if_neg sameYZ] at second ⊢
      refine ⟨?_, second⟩
      rintro rfl
      exact sameYZ sameXY.symm
  · rw [if_neg sameXY] at first
    by_cases sameYZ : graph.bb y = graph.bb z
    · rw [← sameYZ, if_neg sameXY]
      refine ⟨?_, first⟩
      rintro rfl
      exact sameXY sameYZ.symm
    · rw [if_neg sameYZ] at second
      have through := layout.trans _ _ _ first second
      have apart : graph.bb x ≠ graph.bb z := by
        intro same
        rw [← same] at second
        exact sameXY (layout.antisymm _ _ first second)
      rw [if_neg apart]
      refine ⟨?_, through⟩
      rintro rfl
      exact apart rfl

theorem Graph.Placed.trans (layout : graph.Layout) {pseudo : Pseudo}
    (inner : graph.Placed y pseudo) (outer : graph.Placed z (.reg y)) :
    graph.Placed z pseudo := by
  intro reg same
  obtain ⟨different, first⟩ := inner reg same
  exact comesBefore_trans layout different first (outer y rfl).2

theorem placed_val (graph : Graph) (user : Nat) (value : BitVec 64) :
    graph.Placed user (.val value) := by
  rintro reg ⟨⟩

/-- `can_move_to` is the test for one use and for the place of the operand. -/
theorem canMoveTo_iff {pseudo : Pseudo} {user : Nat} :
    graph.canMoveTo pseudo user = true ↔ graph.oneUse user = true ∧ graph.Placed user pseudo := by
  unfold Graph.canMoveTo Graph.Placed
  rw [Bool.and_eq_true]
  refine and_congr_right fun _ => ?_
  cases pseudo with
  | val value => exact iff_of_true rfl fun reg same => by cases same
  | arg nr => exact iff_of_true rfl fun reg same => by cases same
  | reg nr =>
    rw [Bool.and_eq_true, bne_iff_ne]
    constructor
    · rintro both reg ⟨⟩
      exact both
    · intro both
      exact both nr rfl

theorem SameLayout.placed_iff (same : SameLayout graph graph') {user : Nat} {pseudo : Pseudo} :
    graph'.Placed user pseudo ↔ graph.Placed user pseudo := by
  unfold Graph.Placed Graph.comesBefore
  rw [same.bb, same.insns, same.dominates]

end Order

section Edits

variable {graph : Graph} {target : Nat} {insn : Instruction}

theorem sameLayout_setDef (graph : Graph) (reg : Nat) (insn : Instruction) :
    SameLayout graph (graph.setDef reg insn) :=
  ⟨rfl, rfl, rfl⟩

theorem dominated_setDef (dominated : graph.Dominated) {new : Instruction}
    (placed : ∀ slot pseudo, (slot, pseudo) ∈ new.operands → graph.Placed target pseudo) :
    (graph.setDef target new).Dominated := by
  intro reg insn defined slot pseudo member
  rw [(sameLayout_setDef graph target new).placed_iff]
  by_cases same : reg = target
  · subst same
    cases (Function.update_self ..).symm.trans defined
    exact placed slot pseudo member
  · exact dominated reg insn ((Function.update_of_ne same ..).symm.trans defined) slot pseudo member

theorem operands_of_arity {new : Instruction} (two : new.opcode.arity = 2) {slot : Slot}
    {pseudo : Pseudo} (member : (slot, pseudo) ∈ new.operands) :
    pseudo = new.src1 ∨ pseudo = new.src2 := by
  unfold Instruction.operands at member
  rw [two] at member
  rcases List.mem_pair.mp member with same | same
  · cases same
    exact Or.inl rfl
  · cases same
    exact Or.inr rfl

/-- A pair of instructions is replaced: everything depends on the operands of the inner one. -/
theorem dominated_pair_iff (dominated : graph.Dominated) {reg : Nat} (different : reg ≠ target)
    {new newDef : Instruction}
    (placed : ∀ slot pseudo, (slot, pseudo) ∈ new.operands → graph.Placed target pseudo) :
    ((graph.setDef reg newDef).setDef target new).Dominated ↔
      ∀ slot pseudo, (slot, pseudo) ∈ newDef.operands → graph.Placed reg pseudo := by
  constructor
  · intro result slot pseudo member
    have defined : ((graph.setDef reg newDef).setDef target new).defs reg = some newDef :=
      (Function.update_of_ne different ..).trans (Function.update_self ..)
    exact result reg newDef defined slot pseudo member
  · intro inner
    refine dominated_setDef (dominated_setDef dominated inner) ?_
    exact fun slot pseudo member => placed slot pseudo member

end Edits

/-! ## The rule that is used -/

/-- The opcodes of an operation and of the operations that it is factored out of. -/
def FactorPair (outer common : Opcode) : Prop :=
  outer = .add ∧ common = .mul ∨ outer = .and ∧ common = .or ∨
    (outer = .or ∨ outer = .xor) ∧ common = .and

/-- The second operands of both definitions are the same, or else the first ones.  The pseudo
is the operand of the first definition that then becomes an operand of the second one. -/
structure UntestedSide (graph : Graph) (outer : Opcode) (p1 p2 : Pseudo) (regr : Nat)
    (moved : Pseudo) : Prop where
  shape : ∃ reg inner defr, graph.def? p1 = some (reg, inner) ∧
    graph.def? p2 = some (regr, defr) ∧ FactorPair outer inner.opcode ∧
    defr.opcode = inner.opcode ∧
    (defr.src2 = inner.src2 ∧ moved = inner.src1 ∨
      defr.src2 ≠ inner.src2 ∧ defr.src1 = inner.src1 ∧ moved = inner.src2)
  once : graph.oneUse regr = true

def oneSide (graph : Graph) (insn : Instruction) (p1 p2 : Pseudo) : SideRule :=
  match insn.opcode with
  | .add => simplifyAddOneSide graph p1 p2
  | .and => simplifyAndOneSide graph p1 p2
  | .or => simplifyIorOneSide graph insn.size p1 p2
  | .xor => simplifyXorOneSide graph insn.size p1 p2
  | _ => .none

def SideRule.Fits (graph : Graph) (outer : Opcode) (p1 p2 : Pseudo) : SideRule → Prop
  | .subtract src1 src2 => src1 = p2 ∧
      ∃ reg inner, graph.def? p1 = some (reg, inner) ∧ inner.src1 = src2
  | .range defr => ∃ regr, graph.def? p2 = some (regr, defr) ∧ defr.opcode = .setLe
  | .factor regr defr a b c => ∃ reg inner, graph.def? p1 = some (reg, inner) ∧
      graph.def? p2 = some (regr, defr) ∧ inner.opcode.arity = 2 ∧ defr.opcode.arity = 2 ∧
      (a = inner.src1 ∨ a = inner.src2) ∧ (b = defr.src1 ∨ b = defr.src2) ∧
      (c = inner.src1 ∨ c = inner.src2) ∧
      (UntestedSide graph outer p1 p2 regr a ∨ graph.Placed regr a)
  | _ => True

section Rules

variable {graph : Graph} {insn : Instruction} {p1 p2 : Pseudo} {outer : Opcode}

theorem sideRule_eq (graph : Graph) (insn : Instruction) :
    sideRule graph insn =
      (oneSide graph insn insn.src1 insn.src2).orElse (oneSide graph insn insn.src2 insn.src1) := by
  unfold sideRule oneSide
  cases insn.opcode <;> rfl

theorem arity_of_factorPair {common : Opcode} (pair : FactorPair outer common) :
    common.arity = 2 := by
  rcases pair with ⟨-, rfl⟩ | ⟨-, rfl⟩ | ⟨-, rfl⟩ <;> rfl

theorem placed_operands (dominated : graph.Dominated) {reg : Nat} {inner : Instruction}
    (found : graph.def? p1 = some (reg, inner)) (two : inner.opcode.arity = 2) :
    graph.Placed reg inner.src1 ∧ graph.Placed reg inner.src2 := by
  obtain ⟨-, defined⟩ := def?_eq_some found
  exact ⟨dominated reg inner defined .src1 _ (src1_mem_operands inner),
    dominated reg inner defined .src2 _ (BitOperation.src2_mem_operands two)⟩

theorem fits_commonRule (dominated : graph.Dominated) {reg regr : Nat} {inner defr : Instruction}
    (found : graph.def? p1 = some (reg, inner)) (foundr : graph.def? p2 = some (regr, defr))
    (pair : FactorPair outer inner.opcode) (same : defr.opcode = inner.opcode) :
    (commonRule graph inner regr defr).Fits graph outer p1 p2 := by
  have two := arity_of_factorPair pair
  have twor : defr.opcode.arity = 2 := same ▸ two
  unfold commonRule
  split_ifs with bothSecond bothFirst crossed
  · refine ⟨reg, inner, found, foundr, two, twor, Or.inl rfl, Or.inl rfl, Or.inr rfl, Or.inl ?_⟩
    exact ⟨⟨reg, inner, defr, found, foundr, pair, same, Or.inl ⟨bothSecond.1, rfl⟩⟩,
      (canMoveTo_iff.mp bothSecond.2).1⟩
  · have once := (canMoveTo_iff.mp bothFirst.2).1
    refine ⟨reg, inner, found, foundr, two, twor, Or.inr rfl, Or.inr rfl, Or.inl rfl, ?_⟩
    by_cases second : defr.src2 = inner.src2
    · have movable : graph.canMoveTo inner.src2 regr = true :=
        canMoveTo_iff.mpr ⟨once, second ▸ (placed_operands dominated foundr twor).2⟩
      exact absurd ⟨second, movable⟩ bothSecond
    · exact Or.inl ⟨⟨reg, inner, defr, found, foundr, pair, same,
        Or.inr ⟨second, bothFirst.1, rfl⟩⟩, once⟩
  · refine ⟨reg, inner, found, foundr, two, twor, Or.inl rfl, Or.inr rfl, Or.inr rfl, Or.inr ?_⟩
    exact (canMoveTo_iff.mp crossed.2).2
  · trivial

theorem fits_shiftPairRule {reg regr : Nat} {inner defr : Instruction}
    (found : graph.def? p1 = some (reg, inner)) (foundr : graph.def? p2 = some (regr, defr))
    (shift : inner.opcode.IsShift) :
    (shiftPairRule graph inner regr defr).Fits graph outer p1 p2 := by
  have two : inner.opcode.arity = 2 := by
    rcases shift with kind | kind | kind <;> rw [kind] <;> rfl
  unfold shiftPairRule
  split_ifs with fits
  · exact ⟨reg, inner, found, foundr, two, fits.1 ▸ two, Or.inl rfl, Or.inl rfl, Or.inr rfl,
      Or.inr (canMoveTo_iff.mp fits.2.2).2⟩
  · trivial

theorem fits_simplifyAddOneSide (dominated : graph.Dominated) (p1 p2 : Pseudo) :
    (simplifyAddOneSide graph p1 p2).Fits graph .add p1 p2 := by
  unfold simplifyAddOneSide
  cases found : graph.def? p1 with
  | none => trivial
  | some def1 =>
    obtain ⟨reg, inner⟩ := def1
    dsimp only
    cases kind : inner.opcode with
    | mul =>
      cases foundr : graph.def? p2 with
      | none => trivial
      | some def2 =>
        obtain ⟨regr, defr⟩ := def2
        dsimp only
        split_ifs with kindr
        · exact fits_commonRule dominated found foundr (Or.inl ⟨rfl, kind⟩)
            (kindr.trans kind.symm)
        · trivial
    | neg => exact ⟨rfl, reg, inner, found, rfl⟩
    | sub =>
      dsimp only
      split_ifs <;> trivial
    | _ => trivial

theorem fits_bitsOneSide (dominated : graph.Dominated) {common : Opcode}
    (pair : FactorPair outer common) (complement negation : BitVec 64) (p1 p2 : Pseudo) :
    (bitsOneSide graph common complement negation p1 p2).Fits graph outer p1 p2 := by
  unfold bitsOneSide
  cases found : graph.def? p1 with
  | none => trivial
  | some def1 =>
    obtain ⟨reg, inner⟩ := def1
    dsimp only
    by_cases complemented : inner.opcode = .not
    · rw [if_pos complemented]
      split_ifs <;> trivial
    · rw [if_neg complemented]
      cases foundr : graph.def? p2 with
      | none => trivial
      | some def2 =>
        obtain ⟨regr, defr⟩ := def2
        dsimp only
        split_ifs with compare negated opcode opcoder shift
        · trivial
        · trivial
        · exact fits_commonRule dominated found foundr (opcode ▸ pair)
            (opcoder.trans opcode.symm)
        · trivial
        · exact fits_shiftPairRule found foundr shift
        · trivial

theorem fits_rangeRule (p1 p2 : Pseudo) : (rangeRule graph p1 p2).Fits graph outer p1 p2 := by
  rcases BitOperation.rangeRule_cases graph p1 p2 with ⟨inner, defr, check, rule⟩ | ⟨-, rule⟩
  · obtain ⟨-, ⟨most, -⟩, reg, regr, -, foundr⟩ := check
    rw [rule]
    exact ⟨regr, foundr, most⟩
  · rw [rule]
    trivial

theorem fits_orElse {p1' p2' : Pseudo} {first second : SideRule}
    (one : first.Fits graph outer p1 p2) (two : second.Fits graph outer p1' p2') :
    (first.orElse second).Fits graph outer p1 p2 ∨
      (first.orElse second).Fits graph outer p1' p2' := by
  cases first with
  | none => exact Or.inr two
  | _ => exact Or.inl one

theorem fits_oneSide (dominated : graph.Dominated) (insn : Instruction) (p1 p2 : Pseudo) :
    (oneSide graph insn p1 p2).Fits graph insn.opcode p1 p2 := by
  unfold oneSide
  cases insn.opcode with
  | add => exact fits_simplifyAddOneSide dominated p1 p2
  | and =>
    rcases fits_orElse (fits_bitsOneSide dominated (Or.inr (Or.inl ⟨rfl, rfl⟩)) 0 0 p1 p2)
      (fits_rangeRule p1 p2) with fits | fits <;> exact fits
  | or => exact fits_bitsOneSide dominated (Or.inr (Or.inr ⟨Or.inl rfl, rfl⟩)) _ _ p1 p2
  | xor => exact fits_bitsOneSide dominated (Or.inr (Or.inr ⟨Or.inr rfl, rfl⟩)) _ _ p1 p2
  | _ => trivial

/-- Two definitions of the right opcodes are tested for a common operand. -/
theorem oneSide_of_factorPair {reg regr : Nat} {inner defr : Instruction}
    (found : graph.def? p1 = some (reg, inner)) (foundr : graph.def? p2 = some (regr, defr))
    (pair : FactorPair insn.opcode inner.opcode) (same : defr.opcode = inner.opcode) :
    oneSide graph insn p1 p2 = commonRule graph inner regr defr := by
  unfold oneSide
  rcases pair with ⟨kind, common⟩ | ⟨kind, common⟩ | ⟨kind | kind, common⟩
  · rw [kind]
    change simplifyAddOneSide graph p1 p2 = _
    unfold simplifyAddOneSide
    rw [found]
    dsimp only
    rw [common, foundr]
    exact if_pos (same.trans common)
  · rw [kind]
    change (bitsOneSide graph .or 0 0 p1 p2).orElse (rangeRule graph p1 p2) = _
    have bits : bitsOneSide graph .or 0 0 p1 p2 = commonRule graph inner regr defr := by
      unfold bitsOneSide
      rw [found, foundr]
      dsimp only
      rw [same, common]
      rfl
    have range : rangeRule graph p1 p2 = .none := by
      unfold rangeRule
      rw [found, foundr]
      dsimp only
      rw [common]
      exact if_neg fun fits => by cases fits.1.1
    rw [bits, range]
    cases commonRule graph inner regr defr <;> rfl
  all_goals
    rw [kind]
    change bitsOneSide graph .and (bitsMask insn.size) 1 p1 p2 = _
    unfold bitsOneSide
    rw [found, foundr]
    dsimp only
    rw [same, common]
    rfl

/-- The side uses the pattern, and moves the operand. -/
theorem oneSide_of_untested (dominated : graph.Dominated) {regr : Nat} {moved : Pseudo}
    (untested : UntestedSide graph insn.opcode p1 p2 regr moved) :
    ∃ defr b c, oneSide graph insn p1 p2 = .factor regr defr moved b c := by
  obtain ⟨⟨reg, inner, defr, found, foundr, pair, same, pattern⟩, once⟩ := untested
  have placed := placed_operands dominated foundr (same ▸ arity_of_factorPair pair)
  rw [oneSide_of_factorPair found foundr pair same]
  unfold commonRule
  rcases pattern with ⟨second, rfl⟩ | ⟨second, first, rfl⟩
  · exact ⟨defr, _, _, if_pos ⟨second, canMoveTo_iff.mpr ⟨once, second ▸ placed.2⟩⟩⟩
  · rw [if_neg fun fits => second fits.1]
    exact ⟨defr, _, _, if_pos ⟨first, canMoveTo_iff.mpr ⟨once, first ▸ placed.1⟩⟩⟩

/-- A definition with other uses is not edited. -/
theorem oneSide_of_uses {reg regr : Nat} {inner defr : Instruction}
    (found : graph.def? p1 = some (reg, inner)) (foundr : graph.def? p2 = some (regr, defr))
    (pair : FactorPair insn.opcode inner.opcode) (same : defr.opcode = inner.opcode)
    (uses : graph.oneUse regr ≠ true) : oneSide graph insn p1 p2 = .none := by
  have still : ∀ pseudo, graph.canMoveTo pseudo regr ≠ true :=
    fun pseudo movable => uses (canMoveTo_iff.mp movable).1
  rw [oneSide_of_factorPair found foundr pair same]
  unfold commonRule
  rw [if_neg fun fits => still _ fits.2, if_neg fun fits => still _ fits.2,
    if_neg fun fits => still _ fits.2]

/-- The pattern is there in the other order as well, up to the number of uses. -/
theorem UntestedSide.symm {regr : Nat} {moved : Pseudo}
    (untested : UntestedSide graph outer p1 p2 regr moved) :
    ∃ reg inner, graph.def? p1 = some (reg, inner) ∧ (graph.oneUse reg = true →
      ∃ moved', UntestedSide graph outer p2 p1 reg moved') := by
  obtain ⟨⟨reg, inner, defr, found, foundr, pair, same, pattern⟩, -⟩ := untested
  refine ⟨reg, inner, found, fun once => ?_⟩
  rcases pattern with ⟨second, -⟩ | ⟨second, first, -⟩
  · exact ⟨_, ⟨regr, defr, inner, foundr, found, same ▸ pair, same.symm,
      Or.inl ⟨second.symm, rfl⟩⟩, once⟩
  · exact ⟨_, ⟨regr, defr, inner, foundr, found, same ▸ pair, same.symm,
      Or.inr ⟨Ne.symm second, first.symm, rfl⟩⟩, once⟩

theorem UntestedSide.unique {regr regr' : Nat} {moved moved' : Pseudo}
    (untested : UntestedSide graph outer p1 p2 regr moved)
    (untested' : UntestedSide graph outer p1 p2 regr' moved') : regr' = regr ∧ moved' = moved := by
  obtain ⟨⟨reg, inner, defr, found, foundr, -, -, pattern⟩, -⟩ := untested
  obtain ⟨⟨reg', inner', defr', found', foundr', -, -, pattern'⟩, -⟩ := untested'
  cases found.symm.trans found'
  cases foundr.symm.trans foundr'
  rcases pattern with ⟨second, rfl⟩ | ⟨second, -, rfl⟩ <;>
    rcases pattern' with ⟨second', rfl⟩ | ⟨second', -, rfl⟩
  · exact ⟨rfl, rfl⟩
  · exact absurd second second'
  · exact absurd second' second
  · exact ⟨rfl, rfl⟩

end Rules

/-- The operand that `simplify_add`, `simplify_and`, `simplify_ior` or `simplify_xor` moves
without a test.  The second order of the operands is tried when the first one finds another use
of the definition that it would edit. -/
def Untested (graph : Graph) (insn : Instruction) (regr : Nat) (moved : Pseudo) : Prop :=
  UntestedSide graph insn.opcode insn.src1 insn.src2 regr moved ∨
    (∃ reg inner, graph.def? insn.src2 = some (reg, inner) ∧ graph.oneUse reg ≠ true) ∧
      UntestedSide graph insn.opcode insn.src2 insn.src1 regr moved

/-- An instruction whose operands `simplify_add`, `simplify_and`, `simplify_ior` or
`simplify_xor` looks at, in well-formed code. -/
structure Factorable (graph : Graph) (target : Nat) (insn : Instruction) : Prop where
  layout : graph.Layout
  dominated : graph.Dominated
  defined : graph.defs target = some insn
  kind : insn.opcode = .add ∨ insn.opcode.IsBits

namespace Factorable

variable {graph : Graph} {target : Nat} {insn : Instruction} {p1 p2 : Pseudo}

theorem arity (code : Factorable graph target insn) : insn.opcode.arity = 2 := by
  rcases code.kind with kind | kind | kind | kind <;> rw [kind] <;> rfl

section

variable (code : Factorable graph target insn) (sides : Sides insn p1 p2)
include code sides

theorem placed :
    graph.Placed target p1 ∧ graph.Placed target p2 := by
  have first := code.dominated target insn code.defined .src1 _ (src1_mem_operands insn)
  have second := code.dominated target insn code.defined .src2 _
    (BitOperation.src2_mem_operands code.arity)
  rcases sides with ⟨rfl, rfl⟩ | ⟨rfl, rfl⟩
  · exact ⟨first, second⟩
  · exact ⟨second, first⟩

theorem placed_of_def {reg : Nat} {inner : Instruction} (found : graph.def? p1 = some (reg, inner))
    {slot : Slot} {pseudo : Pseudo} (member : (slot, pseudo) ∈ inner.operands) :
    graph.Placed target pseudo := by
  obtain ⟨rfl, defined⟩ := def?_eq_some found
  exact (code.dominated reg inner defined slot pseudo member).trans code.layout
    (code.placed sides).1

/-- `swap_insn` keeps the order exactly when the moved operand is defined in time. -/
theorem dominated_factor_iff {reg regr : Nat} {inner defr : Instruction}
    (found : graph.def? p1 = some (reg, inner)) (foundr : graph.def? p2 = some (regr, defr))
    {a b c : Pseudo} (two : inner.opcode.arity = 2) (twor : defr.opcode.arity = 2)
    (second : b = defr.src1 ∨ b = defr.src2) (common : c = inner.src1 ∨ c = inner.src2) :
    (swapInsn graph target insn regr defr a b c).Dominated ↔ graph.Placed regr a := by
  obtain ⟨rfl, definedr⟩ := def?_eq_some foundr
  have placedr := (code.placed sides).2
  have own := placed_operands code.dominated foundr twor
  unfold swapInsn
  rw [dominated_pair_iff code.dominated (placedr regr rfl).1]
  · constructor
    · intro result
      exact result .src1 a (src1_mem_operands
        { defr with opcode := insn.opcode, src1 := a, src2 := b })
    · intro placed slot pseudo member
      rcases operands_of_arity (by exact code.arity) member with rfl | rfl
      · exact placed
      · rcases second with same | same
        · exact same ▸ own.1
        · exact same ▸ own.2
  · intro slot pseudo member
    rcases operands_of_arity (by exact twor) member with rfl | rfl
    · exact placedr
    · rcases common with same | same
      · exact code.placed_of_def sides found (same ▸ src1_mem_operands inner)
      · exact code.placed_of_def sides found (same ▸ BitOperation.src2_mem_operands two)

/-- A rule that does not move an operand without a test keeps the order. -/
theorem dominated_of_fits {rule : SideRule} (fits : rule.Fits graph insn.opcode p1 p2)
    (tested : ∀ regr moved, UntestedSide graph insn.opcode p1 p2 regr moved →
      graph.Placed regr moved) :
    (rule.apply graph target insn).graph.Dominated := by
  cases rule with
  | constant value => exact code.dominated
  | replace pseudo => exact code.dominated
  | none => exact code.dominated
  | subtract src1 src2 =>
    obtain ⟨rfl, reg, inner, found, rfl⟩ := fits
    refine dominated_setDef code.dominated fun slot pseudo member => ?_
    rcases operands_of_arity rfl member with rfl | rfl
    · exact (code.placed sides).2
    · exact code.placed_of_def sides found (src1_mem_operands inner)
  | range defr =>
    obtain ⟨regr, foundr, opcode⟩ := fits
    refine dominated_setDef code.dominated fun slot pseudo member => ?_
    have sides' := BitOperation.Sides.symm sides
    rcases operands_of_arity rfl member with rfl | rfl
    · exact code.placed_of_def sides' foundr (src1_mem_operands defr)
    · exact code.placed_of_def sides' foundr
        (BitOperation.src2_mem_operands (by rw [opcode]; rfl))
  | factor regr defr a b c =>
    obtain ⟨reg, inner, found, foundr, two, twor, -, second, common, moved⟩ := fits
    refine (code.dominated_factor_iff sides found foundr two twor second common).mpr ?_
    rcases moved with untested | placed
    · exact tested regr a untested
    · exact placed

/-- A side that moves an operand without a test. -/
theorem dominated_untested_iff {regr : Nat} {moved : Pseudo}
    (untested : UntestedSide graph insn.opcode p1 p2 regr moved) :
    ((oneSide graph insn p1 p2).apply graph target insn).graph.Dominated ↔
      graph.Placed regr moved := by
  obtain ⟨defr, b, c, rule⟩ := oneSide_of_untested code.dominated untested
  have fits := fits_oneSide code.dominated insn p1 p2
  rw [rule] at fits ⊢
  obtain ⟨reg, inner, found, foundr, two, twor, -, second, common, -⟩ := fits
  exact code.dominated_factor_iff sides found foundr two twor second common

end

theorem orElse_of_factor {rule second : SideRule} {regr : Nat} {defr : Instruction}
    {a b c : Pseudo} (factor : rule = .factor regr defr a b c) : rule.orElse second = rule := by
  rw [factor]
  rfl

/-- `simplify_add`, `simplify_and`, `simplify_ior` and `simplify_xor` keep every use dominated
exactly when the operand that is moved without a test comes before the instruction that gets
it. -/
theorem dominated_simplifySides_iff (code : Factorable graph target insn) :
    (simplifySides graph target insn).graph.Dominated ↔
      ∀ regr moved, Untested graph insn regr moved → graph.Placed regr moved := by
  have left : Sides insn insn.src1 insn.src2 := Or.inl ⟨rfl, rfl⟩
  have right : Sides insn insn.src2 insn.src1 := Or.inr ⟨rfl, rfl⟩
  unfold simplifySides
  rw [sideRule_eq]
  by_cases first : ∃ regr moved, UntestedSide graph insn.opcode insn.src1 insn.src2 regr moved
  · obtain ⟨regr, moved, untested⟩ := first
    obtain ⟨defr, b, c, rule⟩ := oneSide_of_untested code.dominated untested
    rw [orElse_of_factor rule, code.dominated_untested_iff left untested]
    constructor
    · rintro placed regr' moved' (same | ⟨⟨reg, inner, found, uses⟩, -⟩)
      · obtain ⟨rfl, rfl⟩ := untested.unique same
        exact placed
      · obtain ⟨⟨-, -, defr', -, foundr, -⟩, once⟩ := untested
        cases found.symm.trans foundr
        exact absurd once uses
    · intro all
      exact all regr moved (Or.inl untested)
  · by_cases second : ∃ regr moved, UntestedSide graph insn.opcode insn.src2 insn.src1 regr moved
    · obtain ⟨regr, moved, untested⟩ := second
      obtain ⟨reg, inner, found, sym⟩ := untested.symm
      have uses : graph.oneUse reg ≠ true := by
        intro once
        obtain ⟨moved', other⟩ := sym once
        exact first ⟨reg, moved', other⟩
      have nothing : oneSide graph insn insn.src1 insn.src2 = .none := by
        obtain ⟨⟨reg', inner', defr, found', foundr, pair, same, -⟩, -⟩ := id untested
        cases found.symm.trans found'
        exact oneSide_of_uses foundr found (same ▸ pair) same.symm uses
      rw [nothing]
      change ((oneSide graph insn insn.src2 insn.src1).apply graph target insn).graph.Dominated ↔ _
      rw [code.dominated_untested_iff right untested]
      constructor
      · rintro placed regr' moved' (other | ⟨-, same⟩)
        · exact absurd ⟨regr', moved', other⟩ first
        · obtain ⟨rfl, rfl⟩ := untested.unique same
          exact placed
      · intro all
        exact all regr moved (Or.inr ⟨⟨reg, inner, found, uses⟩, untested⟩)
    · refine iff_of_true ?_ ?_
      · rcases fits_orElse (fits_oneSide code.dominated insn insn.src1 insn.src2)
          (fits_oneSide code.dominated insn insn.src2 insn.src1) with fits | fits
        · exact code.dominated_of_fits left fits fun regr moved here =>
            absurd ⟨regr, moved, here⟩ first
        · exact code.dominated_of_fits right fits fun regr moved here =>
            absurd ⟨regr, moved, here⟩ second
      · rintro regr moved (here | ⟨-, here⟩)
        · exact absurd ⟨regr, moved, here⟩ first
        · exact absurd ⟨regr, moved, here⟩ second

end Factorable

end SmatchFormal.Ir
