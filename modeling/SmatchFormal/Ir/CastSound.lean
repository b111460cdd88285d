import SmatchFormal.Ir.CastRules

/-!
# Casts keep their value

All rules of `simplify_cast` keep the value of the target, apart from two for a sign
extension: a comparison of one bit, and an `AND` of more than 32 bits whose mask is tested
with a shift of an `int`.
-/

namespace SmatchFormal.Ir

namespace TypedCast

variable {graph : Graph} {number : Nat → Nat} {target : Nat} {insn : Instruction} {reg : Nat}
  {inner : Instruction}

theorem truncReader (cast : TypedCast graph number target insn) (kind : insn.opcode = .trunc) :
    MaskReader graph number target insn (bitsMask insn.size) where
  wf := cast.wf
  typed := cast.typed
  defined := cast.defined
  notSel := cast.sourceWidth.1
  within := by
    obtain ⟨⟨pos, le⟩, -⟩ := cast.positive
    intro i bit
    rw [getLsbD_bitsMask i pos le, decide_eq_true_eq] at bit
    rw [cast.sourceWidth.2]
    exact bit.trans (cast.truncWidths kind)
  reads := by
    obtain ⟨⟨pos, le⟩, -⟩ := cast.positive
    intro value value' _ _ x y agree i inside
    rw [testBit_zext _ _ _ _ (Or.inl kind), testBit_zext _ _ _ _ (Or.inl kind),
      agreeOn_bitsMask pos le agree inside]

theorem keeps_maskOr (cast : TypedCast graph number target insn)
    (found : graph.def? insn.src1 = some (reg, inner)) (opcode : inner.opcode = .or)
    (kind : insn.opcode = .trunc) :
    KeepsCast graph target insn
      ⟨(simplifyMaskOr graph target insn (bitsMask insn.size) reg inner).getD graph,
        .reg target⟩ :=
  (cast.truncReader kind).keeps_maskOr (Covers.refl _) found opcode

theorem keeps_maskShift (cast : TypedCast graph number target insn) (tainted : Nat → Bool)
    (found : graph.def? insn.src1 = some (reg, inner))
    (shift : inner.opcode = .lsr ∨ inner.opcode = .shl) (kind : insn.opcode = .trunc) :
    KeepsCast graph target insn
      ⟨(simplifyMaskShift tainted graph reg inner (bitsMask insn.size)).getD graph,
        .reg target⟩ :=
  (cast.truncReader kind).keeps_maskShift (Covers.refl _) tainted found shift

end TypedCast

/-- An `AND` of more than 32 bits with a constant whose sign bit is set is extended with its
sign, nothing else uses it, and the shift of an `int` misses that bit. -/
structure WideMask (undefinedShift : Nat → BitVec 32) (graph : Graph) (insn inner : Instruction) :
    Prop where
  kind : insn.opcode = .sext
  source : ∃ reg, graph.def? insn.src1 = some (reg, inner) ∧ graph.oneUse reg = true
  opcode : inner.opcode = .and
  bits : 32 < inner.size
  mask : ∃ val, inner.src2 = .val val ∧ val.getLsbD (inner.size - 1) = true ∧
    val &&& intShift undefinedShift (inner.size - 1) = 0

/-- The values for which both rules of a sign extension are right: a comparison of one bit is
never true, and the operand of an `AND` has a clear sign bit where that of the mask is missed. -/
structure SignRight (undefinedShift : Nat → BitVec 32) (graph : Graph) (insn inner : Instruction) :
    Prop where
  compare : insn.opcode = .sext → inner.opcode.isCompare = true → insn.itype = 1 →
    ∀ value, Evaluates graph.defs value → value insn.src1 = 0
  mask : WideMask undefinedShift graph insn inner →
    ∀ value, Evaluates graph.defs value → (value inner.src1).testBit (inner.size - 1) = false

/-- Up to 32 bits the shift of an `int` finds the sign bit. -/
theorem getLsbD_intShift (undefinedShift : Nat → BitVec 32) {count : Nat} (less : count < 32) :
    (intShift undefinedShift count).getLsbD count = true := by
  unfold intShift
  rw [if_pos less, BitVec.getLsbD_signExtend, if_pos less, decide_eq_true (by omega),
    Bool.true_and, BitVec.getLsbD_shiftLeft]
  simp [less]

namespace TypedCast

variable {graph : Graph} {number : Nat → Nat} {target : Nat} {insn : Instruction} {reg : Nat}
  {inner : Instruction} {undefinedShift : Nat → BitVec 32}

/-- Other definitions have no rule that can go wrong. -/
theorem signRight_of_other (compare : inner.opcode.isCompare ≠ true) (other : inner.opcode ≠ .and) :
    SignRight undefinedShift graph insn inner :=
  ⟨fun _ here => absurd here compare, fun wide => absurd wide.opcode other⟩

theorem keeps_castOfAnd_iff (cast : TypedCast graph number target insn)
    (found : graph.def? insn.src1 = some (reg, inner)) (opcode : inner.opcode = .and)
    {val : BitVec 64} (constant : inner.src2 = .val val) :
    KeepsCast graph target insn (castOfAnd undefinedShift graph target insn reg inner val) ↔
      SignRight undefinedShift graph insn inner := by
  have pos := cast.positive.2.1
  have width := cast.width found
  have compare : inner.opcode.isCompare ≠ true := by
    rw [opcode]
    exact Bool.false_ne_true
  unfold castOfAnd
  rcases cast.kind with kind | kind | kind
  · have noSext : insn.opcode ≠ .sext := by
      rw [kind]
      exact Opcode.noConfusion
    refine iff_of_true ?_ ⟨fun here => absurd here noSext, fun wide => absurd wide.kind noSext⟩
    rw [kind]
    dsimp only
    split_ifs with once
    · exact cast.keeps_truncAnd found once kind opcode constant
    · exact keeps_none graph target insn
  · have noSext : insn.opcode ≠ .sext := by
      rw [kind]
      exact Opcode.noConfusion
    refine iff_of_true ?_ ⟨fun here => absurd here noSext, fun wide => absurd wide.kind noSext⟩
    rw [kind]
    exact (cast.keeps_extendAnd_iff found (Or.inl kind) opcode constant).mpr
      fun here => absurd here noSext
  · rw [kind]
    dsimp only
    split_ifs with tested
    · refine iff_of_true (keeps_none graph target insn)
        ⟨fun _ here => absurd here compare, fun wide => ?_⟩
      obtain ⟨val', same, -, zero⟩ := wide.mask
      cases constant.symm.trans same
      exact absurd zero tested
    · rw [cast.keeps_extendAnd_iff found (Or.inr kind) opcode constant]
      have zero := not_not.mp tested
      constructor
      · intro clear
        refine ⟨fun _ here => absurd here compare, fun wide value evaluates => ?_⟩
        obtain ⟨reg', found', once⟩ := wide.source
        cases found.symm.trans found'
        obtain ⟨val', same, sign, -⟩ := wide.mask
        cases constant.symm.trans same
        have bit := clear kind once value evaluates
        rw [sign, Bool.and_true] at bit
        exact bit
      · intro right sext once value evaluates
        by_cases sign : val.getLsbD (inner.size - 1) = true
        · by_cases wide : 32 < inner.size
          · rw [right.mask ⟨kind, ⟨reg, found, once⟩, opcode, wide, val, constant, sign, zero⟩ value
              evaluates, Bool.false_and]
          · have low : inner.size - 1 < 32 := by omega
            have clear := MaskContext.bit_of_and_zero zero (getLsbD_intShift undefinedShift low)
            rw [clear, Bool.and_false]
        · rw [Bool.not_eq_true _ |>.mp sign, Bool.and_false]

theorem keeps_compare_iff (cast : TypedCast graph number target insn)
    (found : graph.def? insn.src1 = some (reg, inner)) (compare : inner.opcode.isCompare = true) :
    KeepsCast graph target insn (castOfCompare graph target insn inner) ↔
      SignRight undefinedShift graph insn inner := by
  obtain ⟨place, defined⟩ := def?_eq_some found
  rw [cast.keeps_castOfCompare_iff found compare]
  constructor
  · intro never
    refine ⟨fun sext _ oneBit value evaluates => ?_, fun wide => ?_⟩
    · apply Nat.eq_of_testBit_eq
      intro i
      rw [Nat.zero_testBit]
      rcases Nat.eq_zero_or_pos i with rfl | pos
      · exact never sext oneBit value evaluates
      · rw [place, evaluates.defined reg inner defined]
        exact (testBit_compare compare rfl rfl _ _ 0 _).2 i pos
    · rw [wide.opcode] at compare
      cases compare
  · intro right sext oneBit value evaluates
    rw [right.compare sext compare oneBit value evaluates]
    exact Nat.zero_testBit 0

/-- The switch on the definition of the source keeps the value exactly when both rules of a
sign extension are right. -/
theorem keeps_castOfDef_iff (cast : TypedCast graph number target insn) (tainted : Nat → Bool)
    (found : graph.def? insn.src1 = some (reg, inner)) :
    KeepsCast graph target insn (castOfDef undefinedShift tainted graph target insn reg inner) ↔
      SignRight undefinedShift graph insn inner := by
  have other : ∀ {result}, inner.opcode.isCompare ≠ true → inner.opcode ≠ .and →
      KeepsCast graph target insn result →
        (KeepsCast graph target insn result ↔ SignRight undefinedShift graph insn inner) :=
    fun compare notAnd keeps => iff_of_true keeps (signRight_of_other compare notAnd)
  unfold castOfDef
  cases opcode : inner.opcode with
  | and =>
    dsimp only
    cases constant : inner.src2 with
    | reg nr | arg nr =>
      refine iff_of_true (keeps_none graph target insn) ⟨fun _ here => ?_, fun wide => ?_⟩
      · rw [opcode] at here
        cases here
      · obtain ⟨val, same, -⟩ := wide.mask
        rw [constant] at same
        cases same
    | val val => exact cast.keeps_castOfAnd_iff found opcode constant
  | not =>
    exact other (by rw [opcode]; decide) (by rw [opcode]; decide)
      (cast.keeps_castOfNot found opcode)
  | or =>
    refine other (by rw [opcode]; decide) (by rw [opcode]; decide) ?_
    dsimp only
    split_ifs with kind
    · exact cast.keeps_maskOr found opcode kind
    · exact keeps_none graph target insn
  | lsr | shl =>
    refine other (by rw [opcode]; decide) (by rw [opcode]; decide) ?_
    dsimp only
    split_ifs with kind
    · exact cast.keeps_maskShift tainted found (by rw [opcode]; decide) kind
    · exact keeps_none graph target insn
  | trunc =>
    exact other (by rw [opcode]; decide) (by rw [opcode]; decide)
      (cast.keeps_castOfTrunc found opcode)
  | zext =>
    exact other (by rw [opcode]; decide) (by rw [opcode]; decide)
      (cast.keeps_castOfZext found opcode)
  | sext =>
    exact other (by rw [opcode]; decide) (by rw [opcode]; decide)
      (cast.keeps_castOfSext found opcode)
  | setEq | setLt | setLe | setGe | setGt | setB | setBe | setAe | setA | setNe =>
    exact cast.keeps_compare_iff found (by rw [opcode]; rfl)
  | _ =>
    exact other (by rw [opcode]; decide) (by rw [opcode]; decide) (keeps_none graph target insn)

/-- `simplify_cast` keeps the value of the target, and only edits what nothing else uses, exactly
when both rules of a sign extension are right for the values of the operands. -/
theorem simplifyCast_keeps_iff (undefinedShift : Nat → BitVec 32) (tainted : Nat → Bool)
    (cast : TypedCast graph number target insn) :
    KeepsCast graph target insn (simplifyCast undefinedShift tainted graph target insn) ↔
      ∀ reg inner, graph.def? insn.src1 = some (reg, inner) →
        SignRight undefinedShift graph insn inner := by
  unfold simplifyCast
  cases source : insn.src1 with
  | val val =>
    refine iff_of_true ?_ fun reg inner found => by cases found
    dsimp only
    cases folded : simplifyConstantUnop insn val with
    | none => exact keeps_none graph target insn
    | some res => exact cast.keeps_constant source folded
  | arg nr =>
    exact iff_of_true (keeps_none graph target insn) fun reg inner found => by cases found
  | reg nr =>
    dsimp only
    cases found : graph.def? (.reg nr) with
    | none =>
      exact iff_of_true (keeps_none graph target insn) fun reg inner here => by cases here
    | some definition =>
      obtain ⟨reg, inner⟩ := definition
      refine (cast.keeps_castOfDef_iff tainted (source ▸ found)).trans ?_
      constructor
      · intro right reg' inner' same
        cases same
        exact right
      · intro right
        exact right reg inner rfl

end TypedCast

def castCode (inner insn : Instruction) : Graph := straightLine [inner, insn]

theorem typedCast_castCode {inner insn : Instruction} (order : InOrder [inner, insn] = true)
    (kind : insn.opcode = .trunc ∨ insn.opcode = .zext ∨ insn.opcode = .sext)
    (source : insn.src1 = .reg 0) (width : inner.size = insn.itype)
    (widths : inner.Widths ∧ insn.Widths)
    (leaves : (∀ used, inner.src1 ≠ .reg used) ∧ ∀ used, inner.src2 ≠ .reg used) :
    TypedCast (castCode inner insn) id 1 insn where
  wf := wellFormed_straightLine order
  defined := rfl
  kind := kind
  constant := by
    intro val same
    rw [source] at same
    cases same
  typed := by
    refine typed_pair source (width.trans ?_) widths leaves ?_
    · unfold Instruction.sourceWidth
      rcases kind with kind | kind | kind <;> rw [kind]
    · intro bits
      unfold Opcode.IsBits at bits
      rcases kind with kind | kind | kind <;> rw [kind] at bits <;> exact absurd bits (by decide)

def byteCast : Instruction := ⟨.zext, 64, 32, .reg 0, .val 0, .val 0⟩

def byteCode : Graph := castCode ⟨.and, 32, 32, .arg 0, .val 255, .val 0⟩ byteCast

theorem simplifyCast_keeps_byteCast :
    TypedCast byteCode id 1 byteCast ∧
      KeepsCast byteCode 1 byteCast
        (simplifyCast (fun _ => 0) (fun _ => false) byteCode 1 byteCast) := by
  have cast : TypedCast byteCode id 1 byteCast :=
    typedCast_castCode (by decide) (Or.inr (Or.inl rfl)) rfl rfl
      ⟨⟨by decide, by decide⟩, by decide, by decide, by decide⟩
      ⟨fun _ => Pseudo.noConfusion, fun _ => Pseudo.noConfusion⟩
  have noSext : byteCast.opcode ≠ .sext := Opcode.noConfusion
  refine ⟨cast, (TypedCast.simplifyCast_keeps_iff _ _ cast).mpr fun reg inner found => ?_⟩
  exact ⟨fun sext => absurd sext noSext, fun wide => absurd wide.kind noSext⟩

/-- The cast of a bit-field of one bit that was set to `x == y`. -/
def oneBitCast : Instruction := ⟨.sext, 32, 1, .reg 0, .val 0, .val 0⟩

def oneBitCode : Graph := castCode ⟨.setEq, 1, 32, .arg 0, .arg 1, .val 0⟩ oneBitCast

/-- The value is 1 in place of -1. -/
theorem not_keeps_oneBitCast :
    TypedCast oneBitCode id 1 oneBitCast ∧
      ¬KeepsCast oneBitCode 1 oneBitCast
        (simplifyCast (fun _ => 0) (fun _ => false) oneBitCode 1 oneBitCast) := by
  have cast : TypedCast oneBitCode id 1 oneBitCast :=
    typedCast_castCode (by decide) (Or.inr (Or.inr rfl)) rfl rfl
      ⟨⟨by decide, by decide⟩, by decide, by decide, by decide⟩
      ⟨fun _ => Pseudo.noConfusion, fun _ => Pseudo.noConfusion⟩
  refine ⟨cast, fun keeps => ?_⟩
  obtain ⟨value, evaluates, leaves⟩ := cast.wf.ordered.exists_evaluates fun _ => 0
  have right := (@TypedCast.keeps_compare_iff _ _ _ _ _ _ (fun _ => 0) cast rfl rfl).mp keeps
  have never := right.compare rfl rfl rfl value evaluates
  have result : value oneBitCast.src1 = 1 := by
    change value (.reg 0) = 1
    rw [evaluates.defined 0 _ rfl]
    dsimp only
    rw [leaves.1 0, leaves.1 1]
    rfl
  rw [result] at never
  cases never

end SmatchFormal.Ir
