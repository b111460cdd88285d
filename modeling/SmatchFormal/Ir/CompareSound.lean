import SmatchFormal.Ir.CompareSecond
import Mathlib.Data.BitVec

/-!
# Comparisons with a constant keep their value

All rules of `simplify_seteq_setne` and of `simplify_compare_constant` are right for all
values of the leaves, apart from the one that takes `(x | C) > C` for true.
-/

namespace SmatchFormal.Ir

open Function

section Eval

theorem toInt_ofNat_eq {w : Nat} (pos : 0 < w) (n : Nat) :
    (BitVec.ofNat w n).toInt = signedNumber (2 ^ (w - 1)) (n % 2 ^ w) := by
  have double := two_pow_pred pos
  rw [BitVec.toInt_eq_toNat_cond, BitVec.toNat_ofNat]
  unfold signedNumber
  rw [double]
  push_cast
  split_ifs <;> omega

theorem truth_cases {holds : Bool} {fact : Prop} (same : holds = true ↔ fact) :
    (fact → Instruction.truth holds = 1) ∧ (¬fact → Instruction.truth holds = 0) := by
  constructor
  · intro yes
    rw [same.mpr yes]
    rfl
  · intro no
    rw [Bool.not_eq_true _ |>.mp (mt same.mp no)]
    rfl

theorem eval_compare {insn : Instruction} (compare : insn.opcode.isCompare = true)
    (pos : 0 < insn.itype) (v1 v2 v3 : Nat) :
    (insn.opcode.Holds (2 ^ (insn.itype - 1)) (v1 % 2 ^ insn.itype) (v2 % 2 ^ insn.itype) →
      insn.eval v1 v2 v3 = 1) ∧
    (¬insn.opcode.Holds (2 ^ (insn.itype - 1)) (v1 % 2 ^ insn.itype) (v2 % 2 ^ insn.itype) →
      insn.eval v1 v2 v3 = 0) := by
  obtain ⟨opcode, size, itype, src1, src2, src3⟩ := insn
  have first := BitVec.toNat_ofNat v1 itype
  have second := BitVec.toNat_ofNat v2 itype
  have firstInt := toInt_ofNat_eq pos v1
  have secondInt := toInt_ofNat_eq pos v2
  dsimp only at compare pos firstInt secondInt ⊢
  cases opcode with
  | setEq =>
    refine truth_cases ?_
    rw [beq_iff_eq, ← BitVec.toNat_inj, first, second]
    rfl
  | setNe =>
    refine truth_cases ?_
    rw [bne_iff_ne, ne_eq, ← BitVec.toNat_inj, first, second]
    rfl
  | setLt =>
    refine truth_cases ?_
    rw [BitVec.slt_iff_toInt_lt, firstInt, secondInt]
    rfl
  | setLe =>
    refine truth_cases ?_
    rw [BitVec.sle_iff_toInt_le, firstInt, secondInt]
    rfl
  | setGe =>
    refine truth_cases ?_
    rw [BitVec.sle_iff_toInt_le, firstInt, secondInt]
    rfl
  | setGt =>
    refine truth_cases ?_
    rw [BitVec.slt_iff_toInt_lt, firstInt, secondInt]
    rfl
  | setB =>
    refine truth_cases ?_
    rw [BitVec.ult_iff_lt, BitVec.lt_def, first, second]
    rfl
  | setBe =>
    refine truth_cases ?_
    rw [BitVec.ule_iff_le, BitVec.le_def, first, second]
    rfl
  | setAe =>
    refine truth_cases ?_
    rw [BitVec.ule_iff_le, BitVec.le_def, first, second]
    rfl
  | setA =>
    refine truth_cases ?_
    rw [BitVec.ult_iff_lt, BitVec.lt_def, first, second]
    rfl
  | _ => cases compare

/-- Two comparisons that say the same have the same value. -/
theorem eval_eq_of_holds_iff {insn new : Instruction} (compare : insn.opcode.isCompare = true)
    (pos : 0 < insn.itype) (compareNew : new.opcode.isCompare = true) (posNew : 0 < new.itype)
    {v1 v2 v3 n1 n2 n3 : Nat}
    (same : new.opcode.Holds (2 ^ (new.itype - 1)) (n1 % 2 ^ new.itype) (n2 % 2 ^ new.itype) ↔
      insn.opcode.Holds (2 ^ (insn.itype - 1)) (v1 % 2 ^ insn.itype) (v2 % 2 ^ insn.itype)) :
    new.eval n1 n2 n3 = insn.eval v1 v2 v3 := by
  have old := eval_compare compare pos v1 v2 v3
  have fresh := eval_compare compareNew posNew n1 n2 n3
  by_cases yes : insn.opcode.Holds (2 ^ (insn.itype - 1)) (v1 % 2 ^ insn.itype)
    (v2 % 2 ^ insn.itype)
  · rw [old.1 yes, fresh.1 (same.mpr yes)]
  · rw [old.2 yes, fresh.2 (mt same.mp yes)]

/-- A comparison that is always true, or always false. -/
theorem toNat_eq_eval {insn : Instruction} (compare : insn.opcode.isCompare = true)
    (pos : 0 < insn.itype) {result : BitVec 64} (known : result = 0 ∨ result = 1) {v1 v2 v3 : Nat}
    (same : result = 1 ↔
      insn.opcode.Holds (2 ^ (insn.itype - 1)) (v1 % 2 ^ insn.itype) (v2 % 2 ^ insn.itype)) :
    result.toNat = insn.eval v1 v2 v3 := by
  have value := eval_compare compare pos v1 v2 v3
  rcases known with rfl | rfl
  · rw [value.2 (mt same.mpr (by decide))]
    rfl
  · rw [value.1 (same.mp rfl)]
    rfl

end Eval

/-! ## The operands -/

/-- The widths of an instruction and its constant, as the linearizer makes them. -/
def Instruction.WellTyped (inner : Instruction) : Prop :=
  match inner.opcode with
  | .and | .or => ∀ bits, inner.src2 = .val bits → bits.toNat < 2 ^ inner.size
  | .sext | .zext => 0 < inner.itype ∧ inner.itype < inner.size
  | .trunc => inner.size < inner.itype ∧ inner.itype ≤ 64
  | opcode => opcode.isCompare = true → 0 < inner.itype

/-- A comparison with a constant in well-formed code.  The constant is reduced to the width of
the comparison, and the left operand has that width. -/
structure ConstantCompare (graph : Graph) (number : Nat → Nat) (target : Nat)
    (insn : Instruction) (value : BitVec 64) : Prop where
  wf : graph.WellFormed number
  defined : graph.defs target = some insn
  compare : insn.opcode.isCompare = true
  constant : insn.src2 = .val value
  small : value.toNat < 2 ^ insn.itype
  width : 0 < insn.itype ∧ insn.itype ≤ 64
  result : 0 < insn.size
  operand : ∀ reg inner, graph.def? insn.src1 = some (reg, inner) →
    inner.size = insn.itype ∧ inner.WellTyped

def KeepsTarget (graph : Graph) (target : Nat) (insn : Instruction) (result : Simplified) : Prop :=
  KeepsAs graph target insn.size (fun value => value (.reg target)) result

/-- The comparison is `(x | C) > C` or `(x | C) >= C + 1`, and the constant has no rule of its
own. -/
def AboveSetBits (graph : Graph) (insn : Instruction) (x : Pseudo) (c : BitVec 64) : Prop :=
  (∃ reg inner, graph.def? insn.src1 = some (reg, inner) ∧ inner.opcode = .or ∧
    inner.src1 = x ∧ inner.src2 = .val c) ∧
  (insn.opcode = .setA ∧ insn.src2 = .val c ∧ c ≠ 0 ∧ c ≠ bitsMask insn.itype ∧
      c ≠ bitsMask insn.itype - 1 ∧ c ≠ bitsMask insn.itype >>> 1 ∨
    insn.opcode = .setAe ∧ insn.src2 = .val (c + 1) ∧ c + 1 ≠ 0 ∧ c + 1 ≠ 1 ∧
      c + 1 ≠ bitsMask insn.itype)

section Graphs

variable {graph : Graph} {number : Nat → Nat} {target : Nat} {insn : Instruction}
  {value : BitVec 64}

theorem src1_mem_operands (insn : Instruction) : (.src1, insn.src1) ∈ insn.operands := by
  unfold Instruction.operands
  cases insn.opcode <;> exact .head _

theorem before_val (n : BitVec 64) : Before number target (.val n) := by
  rintro reg ⟨⟩

namespace ConstantCompare

theorem before1 (typed : ConstantCompare graph number target insn value) :
    Before number target insn.src1 :=
  before_operand typed.wf typed.defined (src1_mem_operands insn)

theorem before_of_compare {new : Instruction} (compare : new.opcode.isCompare = true)
    (first : Before number target new.src1) (second : Before number target new.src2) :
    ∀ slot pseudo, (slot, pseudo) ∈ new.operands → Before number target pseudo := by
  intro slot pseudo member
  have two : new.opcode.arity = 2 := by
    cases opcode : new.opcode <;> rw [opcode] at compare <;> first | rfl | cases compare
  unfold Instruction.operands at member
  rw [two] at member
  rcases List.mem_pair.mp member with same | same
  · cases same
    exact first
  · cases same
    exact second

section

variable (typed : ConstantCompare graph number target insn value)
include typed

theorem value_eq {env : Pseudo → Nat} (evaluates : Evaluates graph.defs env) :
    env (.reg target) = insn.eval (env insn.src1) value.toNat (env insn.src3) := by
  rw [evaluates.defined target insn typed.defined, typed.constant, evaluates.constant]

theorem keeps_constant {result : BitVec 64} (known : result = 0 ∨ result = 1)
    (same : ∀ env, Evaluates graph.defs env →
      (result = 1 ↔
        insn.opcode.Holds (2 ^ (insn.itype - 1)) (env insn.src1 % 2 ^ insn.itype) value.toNat)) :
    KeepsTarget graph target insn ⟨graph, .val result⟩ := by
  refine (keepsAs_replace_iff typed.wf (before_val result)).mpr fun env evaluates => ?_
  have equivalent := same env evaluates
  rw [← Nat.mod_eq_of_lt typed.small] at equivalent
  rw [evaluates.constant, typed.value_eq evaluates,
    toNat_eq_eval typed.compare typed.width.1 known equivalent]

/-- The comparison is replaced by another one with a constant. -/
theorem keeps_compare {new : Instruction} {value' : BitVec 64}
    (compare : new.opcode.isCompare = true) (pos : 0 < new.itype)
    (constant : new.src2 = .val value') (small : value'.toNat < 2 ^ new.itype)
    (before : Before number target new.src1)
    (same : ∀ env, Evaluates graph.defs env →
      (new.opcode.Holds (2 ^ (new.itype - 1)) (env new.src1 % 2 ^ new.itype) value'.toNat ↔
        insn.opcode.Holds (2 ^ (insn.itype - 1)) (env insn.src1 % 2 ^ insn.itype) value.toNat)) :
    KeepsTarget graph target insn ⟨graph.setDef target new, .reg target⟩ := by
  refine (keepsAs_target_iff typed.wf typed.defined
    (before_of_compare compare before (constant ▸ before_val value'))).mpr fun env evaluates => ?_
  have equivalent := same env evaluates
  rw [← Nat.mod_eq_of_lt typed.small, ← Nat.mod_eq_of_lt small] at equivalent
  rw [typed.value_eq evaluates, constant, evaluates.constant,
    eval_eq_of_holds_iff typed.compare typed.width.1 compare pos equivalent]

theorem keeps_second {reg : Nat} {inner : Instruction}
    (found : graph.def? insn.src1 = some (reg, inner)) {opcode : Opcode} {value' : BitVec 64}
    (first : SameCompare (2 ^ (insn.itype - 1)) insn.opcode value.toNat opcode value'.toNat)
    {halfOrig : Nat} (orig : 0 < halfOrig → 0 < inner.itype ∧ halfOrig = 2 ^ (inner.itype - 1))
    {possible : Nat → Nat → Prop}
    (actual : ∀ env, Evaluates graph.defs env → possible (env inner.src1 % 2 ^ inner.itype)
      (env insn.src1 % 2 ^ insn.itype))
    {step : SecondStep}
    (right : step.Right (2 ^ (insn.itype - 1)) halfOrig possible opcode value'.toNat) :
    KeepsTarget graph target insn
      (step.apply graph target (insn.compareWith opcode value') reg inner) := by
  obtain ⟨compare, small, same⟩ := first
  have double := two_pow_pred typed.width.1
  have bound : ∀ env : Pseudo → Nat, env insn.src1 % 2 ^ insn.itype < 2 * 2 ^ (insn.itype - 1) :=
    fun env => double ▸ Nat.mod_lt _ (Nat.two_pow_pos _)
  cases step with
  | keep =>
    refine typed.keeps_compare compare typed.width.1 rfl (double ▸ small) typed.before1 ?_
    exact fun env evaluates => same _ (bound env)
  | mask => exact right.elim
  | constant result =>
    refine typed.keeps_constant right.1 fun env evaluates => ?_
    exact (right.2 _ _ (actual env evaluates)).trans (same _ (bound env))
  | edit opcode' value'' =>
    refine typed.keeps_compare right.1 typed.width.1 rfl (double ▸ right.2.1) typed.before1 ?_
    exact fun env evaluates =>
      (right.2.2 _ _ (actual env evaluates)).trans (same _ (bound env))
  | narrow opcode' value'' =>
    obtain ⟨compare', small', same'⟩ := right
    obtain ⟨pos, rfl⟩ := orig (by omega)
    obtain ⟨left, defined⟩ := def?_eq_some found
    have before : Before number target inner.src1 := by
      intro used here
      have less := before_operand typed.wf defined (src1_mem_operands inner) used here
      exact less.trans (typed.before1 reg left)
    refine typed.keeps_compare compare' pos rfl (two_pow_pred pos ▸ small') before ?_
    exact fun env evaluates =>
      (same' _ _ (actual env evaluates)).trans (same _ (bound env))

end

section Operand

variable {reg : Nat} {inner : Instruction} {env : Pseudo → Nat}

theorem operand_eq (found : graph.def? insn.src1 = some (reg, inner))
    (evaluates : Evaluates graph.defs env) :
    env insn.src1 = inner.eval (env inner.src1) (env inner.src2) (env inner.src3) := by
  obtain ⟨left, defined⟩ := def?_eq_some found
  rw [left]
  exact evaluates.defined reg inner defined

theorem operand_and (opcode : inner.opcode = .and) (same : inner.size = insn.itype)
    {bits : BitVec 64} (mask : inner.src2 = .val bits) (small : bits.toNat < 2 ^ inner.size)
    (found : graph.def? insn.src1 = some (reg, inner)) (evaluates : Evaluates graph.defs env) :
    env insn.src1 % 2 ^ insn.itype = env inner.src1 % 2 ^ insn.itype &&& bits.toNat := by
  rw [operand_eq found evaluates, mask, evaluates.constant]
  unfold Instruction.eval
  rw [opcode]
  change (BitVec.ofNat _ _ &&& BitVec.ofNat _ _).toNat % _ = _
  rw [BitVec.toNat_and, BitVec.toNat_ofNat, BitVec.toNat_ofNat, Nat.mod_eq_of_lt small, ← same]
  exact Nat.mod_eq_of_lt (Nat.lt_of_le_of_lt Nat.and_le_right small)

theorem operand_or (opcode : inner.opcode = .or) (same : inner.size = insn.itype)
    {bits : BitVec 64} (set : inner.src2 = .val bits) (small : bits.toNat < 2 ^ inner.size)
    (found : graph.def? insn.src1 = some (reg, inner)) (evaluates : Evaluates graph.defs env) :
    env insn.src1 % 2 ^ insn.itype = env inner.src1 % 2 ^ insn.itype ||| bits.toNat := by
  rw [operand_eq found evaluates, set, evaluates.constant]
  unfold Instruction.eval
  rw [opcode]
  change (BitVec.ofNat _ _ ||| BitVec.ofNat _ _).toNat % _ = _
  rw [BitVec.toNat_or, BitVec.toNat_ofNat, BitVec.toNat_ofNat, Nat.mod_eq_of_lt small, ← same]
  exact Nat.mod_eq_of_lt (Nat.or_lt_two_pow (Nat.mod_lt _ (Nat.two_pow_pos _)) small)

theorem operand_zext (opcode : inner.opcode = .zext) (same : inner.size = insn.itype)
    (wider : inner.itype < inner.size)
    (found : graph.def? insn.src1 = some (reg, inner)) (evaluates : Evaluates graph.defs env) :
    env insn.src1 % 2 ^ insn.itype = env inner.src1 % 2 ^ inner.itype := by
  have below : env inner.src1 % 2 ^ inner.itype < 2 ^ inner.size :=
    (Nat.mod_lt _ (Nat.two_pow_pos _)).trans (Nat.pow_lt_pow_right (by decide) wider)
  rw [operand_eq found evaluates]
  unfold Instruction.eval
  rw [opcode]
  change ((BitVec.ofNat _ _).setWidth _).toNat % _ = _
  rw [BitVec.toNat_setWidth, BitVec.toNat_ofNat, ← same, Nat.mod_mod, Nat.mod_eq_of_lt below]

theorem operand_sext (opcode : inner.opcode = .sext) (same : inner.size = insn.itype)
    (pos : 0 < inner.itype) (wider : inner.itype < inner.size)
    (found : graph.def? insn.src1 = some (reg, inner)) (evaluates : Evaluates graph.defs env) :
    SextOf (2 ^ (insn.itype - 1)) (2 ^ (inner.itype - 1)) (env inner.src1 % 2 ^ inner.itype)
      (env insn.src1 % 2 ^ insn.itype) := by
  have double := two_pow_pred pos
  have doubleSize := two_pow_pred (pos.trans wider)
  have below := Nat.mod_lt (env inner.src1) (Nat.two_pow_pos inner.itype)
  have order := widths_le pos wider
  refine ⟨double ▸ below, ?_⟩
  rw [operand_eq found evaluates]
  unfold Instruction.eval
  rw [opcode, ← same]
  change ((BitVec.ofNat _ _).signExtend _).toNat % _ = _
  rw [BitVec.toNat_signExtend, BitVec.toNat_setWidth, BitVec.msb_eq_decide, BitVec.toNat_ofNat,
    Nat.mod_eq_of_lt (show env inner.src1 % 2 ^ inner.itype < 2 ^ inner.size by omega)]
  split_ifs with high low low
  · rw [decide_eq_true_eq] at high
    omega
  · rw [Nat.mod_eq_of_lt (by omega)]
    omega
  · rw [Nat.mod_eq_of_lt (by omega)]
    omega
  · rw [decide_eq_true_eq] at high
    omega

theorem operand_trunc (opcode : inner.opcode = .trunc) (same : inner.size = insn.itype)
    (narrower : inner.size < inner.itype)
    (found : graph.def? insn.src1 = some (reg, inner)) (evaluates : Evaluates graph.defs env) :
    env insn.src1 % 2 ^ insn.itype = env inner.src1 % 2 ^ insn.itype := by
  rw [operand_eq found evaluates]
  unfold Instruction.eval
  rw [opcode]
  change ((BitVec.ofNat _ _).setWidth _).toNat % _ = _
  rw [BitVec.toNat_setWidth, BitVec.toNat_ofNat, ← same, Nat.mod_mod,
    Nat.mod_mod_of_dvd _ (Nat.pow_dvd_pow 2 narrower.le)]

end Operand

/-! ## The mask in place of a truncation -/

def maskOf (inner : Instruction) : Instruction :=
  { inner with opcode := .and, size := inner.itype, src2 := .val (bitsMask inner.size) }

theorem eval_maskOf {inner : Instruction} (pos : 0 < inner.size)
    (narrower : inner.size < inner.itype) (le : inner.itype ≤ 64) (x z : Nat) :
    (maskOf inner).eval x (bitsMask inner.size).toNat z = x % 2 ^ inner.size := by
  have wider : 2 ^ inner.size - 1 < 2 ^ inner.itype :=
    (Nat.sub_lt (Nat.two_pow_pos _) (by decide)).trans (Nat.pow_lt_pow_right (by decide) narrower)
  change (BitVec.ofNat inner.itype x &&& BitVec.ofNat inner.itype _).toNat = _
  rw [BitVec.toNat_and, BitVec.toNat_ofNat, BitVec.toNat_ofNat,
    toNat_bitsMask pos (narrower.le.trans le), Nat.mod_eq_of_lt wider,
    Nat.and_two_pow_sub_one_eq_mod, Nat.mod_mod_of_dvd _ (Nat.pow_dvd_pow 2 narrower.le)]

/-- The truncation of the left operand becomes a mask, and the comparison is done at any width
that says the same. -/
theorem keeps_mask (typed : ConstantCompare graph number target insn value) {reg : Nat}
    {inner : Instruction} (found : graph.def? insn.src1 = some (reg, inner))
    (opcode : inner.opcode = .trunc) (once : graph.oneUse reg = true) {graph' : Graph}
    {new : Instruction} {value' : BitVec 64} (outer : graph'.defs target = some new)
    (edited : graph'.defs reg = some (maskOf inner))
    (kept : ∀ other, other ≠ target → other ≠ reg → graph'.defs other = graph.defs other)
    (compare : new.opcode.isCompare = true) (pos : 0 < new.itype) (left : new.src1 = insn.src1)
    (constant : new.src2 = .val value') (small : value'.toNat < 2 ^ new.itype)
    (same : ∀ a < 2 ^ insn.itype,
      (new.opcode.Holds (2 ^ (new.itype - 1)) (a % 2 ^ new.itype) value'.toNat ↔
        insn.opcode.Holds (2 ^ (insn.itype - 1)) a value.toNat)) :
    KeepsTarget graph target insn ⟨graph', .reg target⟩ := by
  obtain ⟨place, defined⟩ := def?_eq_some found
  obtain ⟨width, shape⟩ := typed.operand reg inner found
  unfold Instruction.WellTyped at shape
  rw [opcode] at shape
  obtain ⟨narrower, le⟩ := shape
  have less : number reg < number target := typed.before1 reg place
  have used : (target, .src1) ∈ graph.users reg :=
    typed.wf.used target insn typed.defined .src1 reg (place ▸ src1_mem_operands insn)
  have edit : PairEdit graph graph' number target reg new (maskOf inner) :=
    { outer := outer
      inner := edited
      kept := kept
      defined := ⟨by rw [typed.defined]; exact Option.some_ne_none _,
        by rw [defined]; exact Option.some_ne_none _⟩
      before := less
      alone := fun use member => by rw [eq_of_oneUse once used member]
      operands := before_of_compare compare (left ▸ typed.before1) (constant ▸ before_val value')
      operandsDef := by
        intro slot pseudo member
        rcases List.mem_pair.mp member with here | here
        · cases here
          exact before_operand typed.wf defined (src1_mem_operands inner)
        · cases here
          exact before_val _ }
  refine (edit.moved.keepsAs_iff typed.wf).mpr fun env evaluates => ?_
  have masked : afterEdit env reg (maskOf inner) new.src1 = env inner.src1 % 2 ^ insn.itype := by
    rw [left, place, afterEdit_self]
    change (maskOf inner).eval (env inner.src1) (env (.val _)) _ = _
    rw [evaluates.constant, eval_maskOf (width ▸ typed.width.1) narrower le, width]
  have number' : afterEdit env reg (maskOf inner) new.src2 = value'.toNat := by
    rw [constant, afterEdit_of_ne _ _ (by simp), evaluates.constant]
  have operand := operand_trunc opcode width narrower found evaluates
  have equivalent := same _ (Nat.mod_lt (env inner.src1) (Nat.two_pow_pos insn.itype))
  rw [← operand, ← Nat.mod_eq_of_lt small] at equivalent
  rw [masked, number', typed.value_eq evaluates, ← operand]
  refine congrArg (· % 2 ^ insn.size) (eval_eq_of_holds_iff typed.compare typed.width.1 compare
    pos ?_)
  rw [Nat.mod_eq_of_lt typed.small]
  exact equivalent

section SecondSwitch

variable {reg : Nat} {inner : Instruction} {opcode : Opcode} {value' : BitVec 64}

theorem keeps_keep (typed : ConstantCompare graph number target insn value)
    (first : SameCompare (2 ^ (insn.itype - 1)) insn.opcode value.toNat opcode value'.toNat) :
    KeepsTarget graph target insn
      ⟨graph.setDef target (insn.compareWith opcode value'), .reg target⟩ := by
  obtain ⟨compare, small, same⟩ := first
  have double := two_pow_pred typed.width.1
  refine typed.keeps_compare compare typed.width.1 rfl (double ▸ small) typed.before1 ?_
  exact fun env evaluates => same _ (double ▸ Nat.mod_lt _ (Nat.two_pow_pos _))

section

variable (typed : ConstantCompare graph number target insn value)
  (found : graph.def? insn.src1 = some (reg, inner))
include typed found

theorem keeps_secondAnd (kind : inner.opcode = .and)
    (first : SameCompare (2 ^ (insn.itype - 1)) insn.opcode value.toNat opcode value'.toNat)
    (reaches : opcode.Reaches (2 ^ (insn.itype - 1)) value'.toNat) {bits : BitVec 64}
    (mask : inner.src2 = .val bits) :
    KeepsTarget graph target insn ((secondAnd inner.size bits opcode value').apply graph target
      (insn.compareWith opcode value') reg inner) := by
  obtain ⟨width, shape⟩ := typed.operand reg inner found
  unfold Instruction.WellTyped at shape
  rw [kind] at shape
  have small := shape bits mask
  have actual : ∀ env, Evaluates graph.defs env →
      MaskedBy bits (env inner.src1 % 2 ^ inner.itype) (env insn.src1 % 2 ^ insn.itype) := by
    intro env evaluates
    unfold MaskedBy
    rw [operand_and kind width mask small found evaluates, Nat.and_assoc, Nat.and_self]
  have right : (secondAnd inner.size bits opcode value').Right (2 ^ (insn.itype - 1)) 0
      (MaskedBy bits) opcode value'.toNat := by
    rw [width] at small ⊢
    exact secondAnd_right typed.width.1 typed.width.2 small
      (two_pow_pred typed.width.1 ▸ first.2.1) reaches
  exact typed.keeps_second found first (fun none => absurd none (lt_irrefl 0)) actual right

theorem keeps_secondOr (kind : inner.opcode = .or)
    (first : SameCompare (2 ^ (insn.itype - 1)) insn.opcode value.toNat opcode value'.toNat)
    (reaches : opcode.Reaches (2 ^ (insn.itype - 1)) value'.toNat) {bits : BitVec 64}
    (set : inner.src2 = .val bits) (other : ¬(opcode = .setA ∧ bits = value')) :
    KeepsTarget graph target insn ((secondOr inner.size bits opcode value').apply graph target
      (insn.compareWith opcode value') reg inner) := by
  have double := two_pow_pred typed.width.1
  obtain ⟨width, shape⟩ := typed.operand reg inner found
  unfold Instruction.WellTyped at shape
  rw [kind] at shape
  have small := shape bits set
  have actual : ∀ env, Evaluates graph.defs env → SetBy (2 ^ (insn.itype - 1)) bits
      (env inner.src1 % 2 ^ inner.itype) (env insn.src1 % 2 ^ insn.itype) := by
    intro env evaluates
    refine ⟨double ▸ Nat.mod_lt _ (Nat.two_pow_pos _), ?_⟩
    rw [operand_or kind width set small found evaluates]
    apply Nat.eq_of_testBit_eq
    intro i
    rw [Nat.testBit_and, Nat.testBit_or]
    cases (env inner.src1 % 2 ^ insn.itype).testBit i <;> cases bits.toNat.testBit i <;> rfl
  have right : (secondOr inner.size bits opcode value').Right (2 ^ (insn.itype - 1)) 0
      (SetBy (2 ^ (insn.itype - 1)) bits) opcode value'.toNat := by
    rw [width] at small ⊢
    exact secondOr_right typed.width.1 typed.width.2 small (double ▸ first.2.1) reaches other
  exact typed.keeps_second found first (fun none => absurd none (lt_irrefl 0)) actual right

theorem keeps_secondSext (kind : inner.opcode = .sext)
    (first : SameCompare (2 ^ (insn.itype - 1)) insn.opcode value.toNat opcode value'.toNat) :
    KeepsTarget graph target insn ((secondSext insn.itype inner.itype opcode value').apply graph
      target (insn.compareWith opcode value') reg inner) := by
  obtain ⟨width, shape⟩ := typed.operand reg inner found
  unfold Instruction.WellTyped at shape
  rw [kind] at shape
  refine typed.keeps_second found first (fun _ => ⟨shape.1, rfl⟩)
    (fun env evaluates => operand_sext kind width shape.1 shape.2 found evaluates) ?_
  exact secondSext_right shape.1 (width ▸ shape.2) typed.width.2
    (two_pow_pred typed.width.1 ▸ first.2.1) first.1

theorem keeps_secondZext (kind : inner.opcode = .zext)
    (first : SameCompare (2 ^ (insn.itype - 1)) insn.opcode value.toNat opcode value'.toNat) :
    KeepsTarget graph target insn ((secondZext insn.itype inner.itype opcode value').apply graph
      target (insn.compareWith opcode value') reg inner) := by
  obtain ⟨width, shape⟩ := typed.operand reg inner found
  unfold Instruction.WellTyped at shape
  rw [kind] at shape
  have actual : ∀ env, Evaluates graph.defs env → ZextOf (2 ^ (inner.itype - 1))
      (env inner.src1 % 2 ^ inner.itype) (env insn.src1 % 2 ^ insn.itype) := by
    intro env evaluates
    refine ⟨two_pow_pred shape.1 ▸ Nat.mod_lt _ (Nat.two_pow_pos _), ?_⟩
    exact operand_zext kind width shape.2 found evaluates
  refine typed.keeps_second found first (fun _ => ⟨shape.1, rfl⟩) actual ?_
  exact secondZext_right shape.1 (width ▸ shape.2) typed.width.2
    (two_pow_pred typed.width.1 ▸ first.2.1) first.1

theorem keeps_secondTrunc (kind : inner.opcode = .trunc)
    (first : SameCompare (2 ^ (insn.itype - 1)) insn.opcode value.toNat opcode value'.toNat)
    (equality : opcode = .setEq ∨ opcode = .setNe) (once : graph.oneUse reg = true) :
    KeepsTarget graph target insn
      (SecondStep.mask.apply graph target (insn.compareWith opcode value') reg inner) := by
  have double := two_pow_pred typed.width.1
  obtain ⟨width, shape⟩ := typed.operand reg inner found
  unfold Instruction.WellTyped at shape
  rw [kind] at shape
  have wider : 2 ^ insn.itype ≤ 2 ^ inner.itype :=
    Nat.pow_le_pow_right (by decide) (width ▸ shape.1.le)
  obtain ⟨place, -⟩ := def?_eq_some found
  have distinct : reg ≠ target := by
    rintro rfl
    exact lt_irrefl _ (typed.before1 reg place)
  have mask : { inner with
      opcode := .and, size := inner.itype, src2 := .val (bitsMask insn.itype) } = maskOf inner := by
    unfold maskOf
    rw [width]
  refine typed.keeps_mask found kind once (update_self ..) ?_ ?_ first.1
    (typed.width.1.trans (width ▸ shape.1)) rfl rfl (Nat.lt_of_lt_of_le (double ▸ first.2.1) wider)
    ?_
  · rw [← mask]
    exact (update_of_ne distinct ..).trans (update_self ..)
  · intro other notTarget notReg
    exact (update_of_ne notTarget ..).trans (update_of_ne notReg ..)
  · intro a below
    rw [← first.2.2 a (double ▸ below)]
    change opcode.Holds (2 ^ (inner.itype - 1)) (a % 2 ^ inner.itype) _ ↔ _
    rw [Nat.mod_eq_of_lt (below.trans_le wider)]
    rcases equality with rfl | rfl <;> exact Iff.rfl

/-- The second switch is right, apart from `(x | C) > C`. -/
theorem keeps_secondSwitch
    (first : SameCompare (2 ^ (insn.itype - 1)) insn.opcode value.toNat opcode value'.toNat)
    (reaches : opcode.Reaches (2 ^ (insn.itype - 1)) value'.toNat)
    (other : ¬(inner.opcode = .or ∧ inner.src2 = .val value' ∧ opcode = .setA)) :
    KeepsTarget graph target insn ((secondSwitch graph insn.itype reg inner opcode value').apply
      graph target (insn.compareWith opcode value') reg inner) := by
  have keep := typed.keeps_keep first
  unfold secondSwitch
  cases kind : inner.opcode with
  | and =>
    cases mask : inner.src2 with
    | val bits => exact typed.keeps_secondAnd found kind first reaches mask
    | reg nr => exact keep
    | arg nr => exact keep
  | or =>
    cases set : inner.src2 with
    | val bits =>
      refine typed.keeps_secondOr found kind first reaches set ?_
      rintro ⟨above, rfl⟩
      exact other ⟨kind, set, above⟩
    | reg nr => exact keep
    | arg nr => exact keep
  | sext => exact typed.keeps_secondSext found kind first
  | zext => exact typed.keeps_secondZext found kind first
  | trunc =>
    have edited : (opcode = .setEq ∨ opcode = .setNe) →
        KeepsTarget graph target insn ((if graph.oneUse reg then SecondStep.mask else .keep).apply
          graph target (insn.compareWith opcode value') reg inner) := by
      intro equality
      split_ifs with once
      · exact typed.keeps_secondTrunc found kind first equality once
      · exact keep
    cases opcode with
    | setEq => exact edited (Or.inl rfl)
    | setNe => exact edited (Or.inr rfl)
    | _ => exact keep
  | _ => exact keep

/-- The rule for `(x | C) > C`, which takes the comparison for true. -/
theorem keeps_aboveSetBits_iff (kind : inner.opcode = .or) (set : inner.src2 = .val value')
    (first : SameCompare (2 ^ (insn.itype - 1)) insn.opcode value.toNat .setA value'.toNat) :
    KeepsTarget graph target insn ((secondSwitch graph insn.itype reg inner .setA value').apply
      graph target (insn.compareWith .setA value') reg inner) ↔
      ∀ env, Evaluates graph.defs env →
        env inner.src1 % 2 ^ insn.itype ||| value'.toNat ≠ value'.toNat := by
  have double := two_pow_pred typed.width.1
  obtain ⟨width, shape⟩ := typed.operand reg inner found
  unfold Instruction.WellTyped at shape
  rw [kind] at shape
  have small := shape value' set
  have step : secondSwitch graph insn.itype reg inner .setA value' = .constant 1 := by
    unfold secondSwitch
    rw [kind, set]
    exact if_pos (Nat.le_refl value'.toNat)
  rw [step]
  refine (keepsAs_replace_iff typed.wf (before_val 1)).trans (forall₂_congr fun env evaluates => ?_)
  have operand := operand_or kind width set small found evaluates
  have least : value'.toNat ≤ env insn.src1 % 2 ^ insn.itype := by
    rw [operand]
    exact Nat.right_le_or
  have same := first.2.2 (env insn.src1 % 2 ^ insn.itype)
    (double ▸ Nat.mod_lt _ (Nat.two_pow_pos _))
  rw [← operand, evaluates.constant]
  have cases := eval_compare typed.compare typed.width.1 (env insn.src1) value.toNat (env insn.src3)
  rw [Nat.mod_eq_of_lt typed.small, ← same, ← typed.value_eq evaluates] at cases
  have two : 1 < 2 ^ insn.size := Nat.one_lt_two_pow typed.result.ne'
  constructor
  · intro one equal
    rw [cases.2 (fun above : value'.toNat < _ => above.ne' equal), Nat.zero_mod] at one
    exact absurd one (by rw [show (1 : BitVec 64).toNat = 1 from rfl, Nat.mod_eq_of_lt two]; decide)
  · intro different
    rw [cases.1 (lt_of_le_of_ne least different.symm)]
    rfl

end

end SecondSwitch

/-! ## The functions -/

theorem firstSwitch_eq_setA_iff {size : Nat} {opcode : Opcode} {value c : BitVec 64}
    (pos : 0 < size)
    (le : size ≤ 64) (small : value.toNat < 2 ^ size) :
    firstSwitch size opcode value = .further .setA c ↔
      (opcode = .setA ∧ value = c ∧ c ≠ 0 ∧ c ≠ bitsMask size ∧ c ≠ bitsMask size - 1 ∧
        c ≠ bitsMask size >>> 1) ∨
      (opcode = .setAe ∧ value = c + 1 ∧ c + 1 ≠ 0 ∧ c + 1 ≠ 1 ∧ c + 1 ≠ bitsMask size) := by
  cases opcode with
  | setA =>
    dsimp only [firstSwitch]
    simp only [reduceCtorEq, false_and, or_false, true_and]
    split_ifs with zero last pred half
    all_goals grind
  | setAe =>
    have back : value ≠ 0 → ((value - 1) &&& bitsMask size = c ↔ value = c + 1) := by
      intro nonzero
      have number := toNat_pred_and_bitsMask pos le small nonzero
      have kept : (value - 1) &&& bitsMask size = value - 1 := by
        apply BitVec.eq_of_toNat_eq
        rw [number, BitVec.toNat_sub_of_le]
        · rfl
        · rw [BitVec.le_def]
          exact Nat.pos_of_ne_zero fun zero => nonzero (eq_zero_iff_toNat.mpr zero)
      rw [kept]
      exact sub_eq_iff_eq_add
    dsimp only [firstSwitch]
    simp only [reduceCtorEq, false_and, false_or, true_and]
    split_ifs with zero one last
    all_goals grind
  | setB | setBe =>
    dsimp only [firstSwitch]
    simp only [reduceCtorEq, false_and, or_false, iff_false]
    split_ifs <;> simp
  | setLt | setLe | setGe | setGt =>
    dsimp only [firstSwitch, firstSigned]
    simp only [reduceCtorEq, false_and, or_false, iff_false]
    split_ifs <;> simp
  | _ => simp [firstSwitch, firstSigned]

/-- The comparison is one that the rule for `(x | C) > C` takes. -/
theorem aboveSetBits_iff (typed : ConstantCompare graph number target insn value) {reg : Nat}
    {inner : Instruction} (found : graph.def? insn.src1 = some (reg, inner)) (x : Pseudo)
    (c : BitVec 64) :
    AboveSetBits graph insn x c ↔ firstSwitch insn.itype insn.opcode value = .further .setA c ∧
      inner.opcode = .or ∧ inner.src1 = x ∧ inner.src2 = .val c := by
  have constant : ∀ d : BitVec 64, insn.src2 = .val d ↔ value = d := by
    intro d
    rw [typed.constant]
    exact ⟨fun same => by cases same; rfl, fun same => by rw [same]⟩
  rw [firstSwitch_eq_setA_iff typed.width.1 typed.width.2 typed.small]
  unfold AboveSetBits
  rw [constant, constant]
  constructor
  · rintro ⟨⟨reg', inner', found', shape⟩, opcode⟩
    cases found.symm.trans found'
    exact ⟨opcode, shape⟩
  · rintro ⟨opcode, shape⟩
    exact ⟨⟨reg, inner, found, shape⟩, opcode⟩

/-- `simplify_compare_constant` keeps the value of the comparison exactly when the operand of
`(x | C) > C` always has a bit outside of the constant. -/
theorem simplifyCompareConstant_keeps_iff
    (typed : ConstantCompare graph number target insn value) :
    KeepsTarget graph target insn (simplifyCompareConstant graph target insn value) ↔
      ∀ x c, AboveSetBits graph insn x c → ∀ env, Evaluates graph.defs env →
        env x % 2 ^ insn.itype ||| c.toNat ≠ c.toNat := by
  have right := firstSwitch_right typed.width.1 typed.width.2 typed.small typed.compare
  have double := two_pow_pred typed.width.1
  have unaffected : (∀ c, firstSwitch insn.itype insn.opcode value ≠ .further .setA c) →
      ∀ x c, AboveSetBits graph insn x c → ∀ env, Evaluates graph.defs env →
        env x % 2 ^ insn.itype ||| c.toNat ≠ c.toNat := by
    intro never x c above
    obtain ⟨reg, inner, found, -⟩ := id above.1
    exact absurd ((typed.aboveSetBits_iff found x c).mp above).1 (never c)
  unfold simplifyCompareConstant
  cases step : firstSwitch insn.itype insn.opcode value with
  | constant result =>
    rw [step] at right unaffected
    refine iff_of_true (typed.keeps_constant right.1 fun env evaluates => ?_)
      (unaffected fun c => FirstStep.noConfusion)
    exact right.2 _ (double ▸ Nat.mod_lt _ (Nat.two_pow_pos _))
  | done opcode value' =>
    rw [step] at right unaffected
    exact iff_of_true (typed.keeps_keep right) (unaffected fun c => FirstStep.noConfusion)
  | further opcode value' =>
    rw [step] at right unaffected
    dsimp only
    cases found : graph.def? insn.src1 with
    | none =>
      refine iff_of_true (typed.keeps_keep right.1) ?_
      rintro x c ⟨⟨reg, inner, found', -⟩, -⟩
      cases found.symm.trans found'
    | some pair =>
      obtain ⟨reg, inner⟩ := pair
      by_cases above : inner.opcode = .or ∧ inner.src2 = .val value' ∧ opcode = .setA
      · obtain ⟨kind, set, rfl⟩ := above
        refine (typed.keeps_aboveSetBits_iff found kind set right.1).trans ?_
        constructor
        · intro never x c here
          obtain ⟨same, -, rfl, -⟩ := (typed.aboveSetBits_iff found x c).mp here
          cases step.symm.trans same
          exact never
        · intro never
          exact never inner.src1 value'
            ((typed.aboveSetBits_iff found _ _).mpr ⟨step, kind, rfl, set⟩)
      · refine iff_of_true (typed.keeps_secondSwitch found right.1 right.2 above) ?_
        intro x c here
        obtain ⟨same, kind, -, set⟩ := (typed.aboveSetBits_iff found x c).mp here
        cases step.symm.trans same
        exact absurd ⟨kind, set, rfl⟩ above

section Tests

variable {reg : Nat} {inner : Instruction}

/-- The comparison tests that the left operand, which is zero or one, is one. -/
theorem keeps_self (typed : ConstantCompare graph number target insn value)
    (test : insn.opcode = .setNe ∧ value = 0 ∨ insn.opcode = .setEq ∧ value = 1)
    (width : insn.size = insn.itype)
    (bit : ∀ env, Evaluates graph.defs env → env insn.src1 % 2 ^ insn.itype ≤ 1) :
    KeepsTarget graph target insn ⟨graph, insn.src1⟩ := by
  refine (keepsAs_replace_iff typed.wf typed.before1).mpr fun env evaluates => ?_
  have two : 1 < 2 ^ insn.itype := Nat.one_lt_two_pow typed.width.1.ne'
  have cases := eval_compare typed.compare typed.width.1 (env insn.src1) value.toNat (env insn.src3)
  rw [Nat.mod_eq_of_lt typed.small] at cases
  have holds : insn.opcode.Holds (2 ^ (insn.itype - 1)) (env insn.src1 % 2 ^ insn.itype)
      value.toNat ↔ env insn.src1 % 2 ^ insn.itype = 1 := by
    have small := bit env evaluates
    rcases test with ⟨opcode, rfl⟩ | ⟨opcode, rfl⟩
    · rw [opcode]
      change _ ≠ 0 ↔ _
      omega
    · rw [opcode]
      exact Iff.rfl
  rw [holds] at cases
  rw [typed.value_eq evaluates, width]
  by_cases one : env insn.src1 % 2 ^ insn.itype = 1
  · rw [cases.1 one, one, Nat.mod_eq_of_lt two]
  · rw [cases.2 one, Nat.zero_mod]
    have small := bit env evaluates
    omega

section

variable (typed : ConstantCompare graph number target insn value)
  (found : graph.def? insn.src1 = some (reg, inner))
include typed found

/-- A comparison of a comparison with zero or one. -/
theorem keeps_compareOf (compare : inner.opcode.isCompare = true) (pos : 0 < inner.itype)
    {opcode : Opcode}
    (test : (insn.opcode = .setNe ∧ value = 0 ∨ insn.opcode = .setEq ∧ value = 1) ∧
        opcode = inner.opcode ∨
      (insn.opcode = .setNe ∧ value = 1 ∨ insn.opcode = .setEq ∧ value = 0) ∧
        opcode = inner.opcode.opposite) :
    KeepsTarget graph target insn
      ⟨graph.setDef target
        { insn with opcode := opcode, itype := inner.itype, src1 := inner.src1,
                    src2 := inner.src2 }, .reg target⟩ := by
  obtain ⟨place, defined⟩ := def?_eq_some found
  have less := typed.before1 reg place
  have compareNew : opcode.isCompare = true := by
    rcases test with ⟨-, rfl⟩ | ⟨-, rfl⟩
    · exact compare
    · exact isCompare_opposite compare
  have second : (.src2, inner.src2) ∈ inner.operands := by
    unfold Instruction.operands
    cases kind : inner.opcode <;> rw [kind] at compare <;>
      first | exact .tail _ (.head _) | cases compare
  have before : ∀ {slot pseudo}, (slot, pseudo) ∈ inner.operands → Before number target pseudo :=
    fun member used here => (before_operand typed.wf defined member used here).trans less
  refine (keepsAs_target_iff typed.wf typed.defined ?_).mpr fun env evaluates => ?_
  · exact before_of_compare compareNew (before (src1_mem_operands inner)) (before second)
  have two : 1 < 2 ^ insn.itype := Nat.one_lt_two_pow typed.width.1.ne'
  have cases := eval_compare compare pos (env inner.src1) (env inner.src2) (env inner.src3)
  rw [← operand_eq found evaluates] at cases
  rw [typed.value_eq evaluates]
  refine congrArg (· % 2 ^ insn.size) (eval_eq_of_holds_iff typed.compare typed.width.1 ?_ ?_ ?_)
  · exact compareNew
  · exact pos
  rw [Nat.mod_eq_of_lt typed.small]
  change opcode.Holds (2 ^ (inner.itype - 1)) (env inner.src1 % 2 ^ inner.itype)
    (env inner.src2 % 2 ^ inner.itype) ↔ _
  by_cases yes : inner.opcode.Holds (2 ^ (inner.itype - 1)) (env inner.src1 % 2 ^ inner.itype)
    (env inner.src2 % 2 ^ inner.itype)
  · rw [cases.1 yes, Nat.mod_eq_of_lt two]
    rcases test with ⟨⟨kind, rfl⟩ | ⟨kind, rfl⟩, rfl⟩ | ⟨⟨kind, rfl⟩ | ⟨kind, rfl⟩, rfl⟩
    · rw [kind]
      exact iff_of_true yes Nat.one_ne_zero
    · rw [kind]
      exact iff_of_true yes rfl
    · rw [kind, holds_opposite compare]
      exact iff_of_false (not_not.mpr yes) (fun ne => ne rfl)
    · rw [kind, holds_opposite compare]
      exact iff_of_false (not_not.mpr yes) Nat.one_ne_zero
  · rw [cases.2 yes, Nat.zero_mod]
    rcases test with ⟨⟨kind, rfl⟩ | ⟨kind, rfl⟩, rfl⟩ | ⟨⟨kind, rfl⟩ | ⟨kind, rfl⟩, rfl⟩
    · rw [kind]
      exact iff_of_false yes (fun ne => ne rfl)
    · rw [kind]
      exact iff_of_false yes Nat.zero_ne_one
    · rw [kind, holds_opposite compare]
      exact iff_of_true yes Nat.zero_ne_one
    · rw [kind, holds_opposite compare]
      exact iff_of_true yes rfl

/-- The test is done on the operand of an extension. -/
theorem keeps_extended (equality : insn.opcode = .setEq ∨ insn.opcode = .setNe)
    (bit : value = 0 ∨ value = 1) (pos : 0 < inner.itype)
    (same : ∀ env, Evaluates graph.defs env → (env inner.src1 % 2 ^ inner.itype = value.toNat ↔
      env insn.src1 % 2 ^ insn.itype = value.toNat)) :
    KeepsTarget graph target insn
      ⟨graph.setDef target { insn with itype := inner.itype, src1 := inner.src1 },
        .reg target⟩ := by
  obtain ⟨place, defined⟩ := def?_eq_some found
  have before : Before number target inner.src1 := fun used here =>
    (before_operand typed.wf defined (src1_mem_operands inner) used here).trans
      (typed.before1 reg place)
  have small : value.toNat < 2 ^ inner.itype := by
    have two : 1 < 2 ^ inner.itype := Nat.one_lt_two_pow pos.ne'
    rcases bit with rfl | rfl
    · exact Nat.two_pow_pos _
    · exact two
  refine typed.keeps_compare typed.compare pos typed.constant small before fun env evaluates => ?_
  change insn.opcode.Holds _ _ _ ↔ _
  rcases equality with kind | kind
  · rw [kind]
    exact same env evaluates
  · rw [kind]
    exact not_congr (same env evaluates)

theorem keeps_seteqSetne_sext (kind : inner.opcode = .sext)
    (equality : insn.opcode = .setEq ∨ insn.opcode = .setNe) (bit : value = 0 ∨ value = 1)
    (wide : ¬(value ≠ 0 ∧ inner.itype = 1)) :
    KeepsTarget graph target insn
      ⟨graph.setDef target { insn with itype := inner.itype, src1 := inner.src1 },
        .reg target⟩ := by
  obtain ⟨width, shape⟩ := typed.operand reg inner found
  unfold Instruction.WellTyped at shape
  rw [kind] at shape
  refine typed.keeps_extended found equality bit shape.1 fun env evaluates => ?_
  obtain ⟨below, number⟩ := operand_sext kind width shape.1 shape.2 found evaluates
  have order := widths_le shape.1 shape.2
  have positive := half_pos inner.itype
  rw [number, ← width]
  rcases bit with rfl | rfl
  · change _ = 0 ↔ _ = 0
    split_ifs <;> omega
  · have two : 2 ≤ 2 ^ (inner.itype - 1) := by
      have one : inner.itype ≠ 1 := fun one => wide ⟨by decide, one⟩
      have pos := shape.1
      exact Nat.one_lt_two_pow (by omega)
    change _ = 1 ↔ _ = 1
    split_ifs <;> omega

theorem keeps_seteqSetne_other (equality : insn.opcode = .setEq ∨ insn.opcode = .setNe)
    (bit : value = 0 ∨ value = 1)
    (twoWays : (insn.opcode = .setNe ↔ value = 1) ∧
        (insn.opcode = .setNe ∧ value = 1 ∨ insn.opcode = .setEq ∧ value = 0) ∨
      ¬(insn.opcode = .setNe ↔ value = 1) ∧
        (insn.opcode = .setNe ∧ value = 0 ∨ insn.opcode = .setEq ∧ value = 1))
    {result : Simplified}
    (done : seteqSetneSwitch graph target insn value reg inner
      (decide (insn.opcode = .setNe ↔ value = 1)) = some result) :
    KeepsTarget graph target insn result := by
  obtain ⟨width, shape⟩ := typed.operand reg inner found
  unfold Instruction.WellTyped at shape
  unfold seteqSetneSwitch at done
  cases kind : inner.opcode with
  | and =>
    rw [kind] at done shape
    dsimp only at done
    obtain ⟨⟨invert, size, mask⟩, same⟩ := Option.ite_none_right_eq_some.mp done
    cases same
    obtain ⟨same, -⟩ | ⟨-, test⟩ := twoWays
    · rw [decide_eq_true same] at invert
      cases invert
    · refine typed.keeps_self test (size.symm.trans width) fun env evaluates => ?_
      rw [operand_and kind width mask (shape 1 mask) found evaluates]
      exact Nat.and_le_right
  | sext =>
    rw [kind] at done
    obtain ⟨wide, same⟩ := Option.ite_none_left_eq_some.mp done
    cases same
    exact typed.keeps_seteqSetne_sext found kind equality bit wide
  | zext =>
    rw [kind] at done shape
    cases done
    refine typed.keeps_extended found equality bit shape.1 fun env evaluates => ?_
    rw [operand_zext kind width shape.2 found evaluates]
  | trunc =>
    rw [kind] at done
    obtain ⟨once, same⟩ := Option.ite_none_right_eq_some.mp done
    cases same
    obtain ⟨place, -⟩ := def?_eq_some found
    have distinct : reg ≠ target := by
      rintro rfl
      exact lt_irrefl _ (typed.before1 reg place)
    refine typed.keeps_mask found kind once ?_ (update_self ..) ?_ typed.compare
      typed.width.1 rfl typed.constant typed.small ?_
    · exact (update_of_ne distinct.symm ..).trans typed.defined
    · intro other _ notReg
      exact update_of_ne notReg ..
    · intro a below
      rw [Nat.mod_eq_of_lt below]
  | _ =>
    rw [kind] at done
    cases done

end

theorem simplifySeteqSetne_keeps (typed : ConstantCompare graph number target insn value)
    (equality : insn.opcode = .setEq ∨ insn.opcode = .setNe) {result : Simplified}
    (done : simplifySeteqSetne graph target insn value = some result) :
    KeepsTarget graph target insn result := by
  unfold simplifySeteqSetne at done
  obtain ⟨either, done⟩ := Option.ite_none_left_eq_some.mp done
  have bit : value = 0 ∨ value = 1 := by
    by_contra neither
    exact either (not_or.mp neither)
  cases found : graph.def? insn.src1 with
  | none =>
    rw [found] at done
    cases done
  | some pair =>
    obtain ⟨reg, inner⟩ := pair
    rw [found] at done
    dsimp only at done
    obtain ⟨width, shape⟩ := typed.operand reg inner found
    have twoWays : (insn.opcode = .setNe ↔ value = 1) ∧
          (insn.opcode = .setNe ∧ value = 1 ∨ insn.opcode = .setEq ∧ value = 0) ∨
        ¬(insn.opcode = .setNe ↔ value = 1) ∧
          (insn.opcode = .setNe ∧ value = 0 ∨ insn.opcode = .setEq ∧ value = 1) := by
      rcases equality with kind | kind <;> rcases bit with rfl | rfl <;>
        simp [kind]
    split at done
    case isTrue isBit =>
      -- A value of one bit is its own test.
      obtain ⟨invert, one, single⟩ := isBit
      cases done
      obtain ⟨same, -⟩ | ⟨-, test⟩ := twoWays
      · rw [decide_eq_true same] at invert
        cases invert
      · refine typed.keeps_self test (by omega) fun env evaluates => ?_
        have below := Nat.mod_lt (env insn.src1) (Nat.two_pow_pos insn.itype)
        rw [← width, one] at below
        rw [← width, one]
        exact Nat.lt_succ_iff.mp below
    case isFalse =>
      split at done
      case isTrue compare =>
        cases done
        have pos : 0 < inner.itype := by
          unfold Instruction.WellTyped at shape
          cases kind : inner.opcode <;> rw [kind] at compare shape <;>
            first | exact shape rfl | cases compare
        refine typed.keeps_compareOf found compare pos ?_
        obtain ⟨same, test⟩ | ⟨different, test⟩ := twoWays
        · exact Or.inr ⟨test, if_pos (decide_eq_true same)⟩
        · exact Or.inl ⟨test, if_neg fun same => different (of_decide_eq_true same)⟩
      case isFalse =>
        exact typed.keeps_seteqSetne_other found equality bit twoWays done

end Tests

/-- Both functions, on every comparison with a constant. -/
theorem compare_keeps_iff (typed : ConstantCompare graph number target insn value) :
    ((insn.opcode = .setEq ∨ insn.opcode = .setNe) → ∀ result,
      simplifySeteqSetne graph target insn value = some result →
        KeepsTarget graph target insn result) ∧
    (KeepsTarget graph target insn (simplifyCompareConstant graph target insn value) ↔
      ∀ x c, AboveSetBits graph insn x c → ∀ env, Evaluates graph.defs env →
        env x % 2 ^ insn.itype ||| c.toNat ≠ c.toNat) :=
  ⟨fun equality _ done => typed.simplifySeteqSetne_keeps equality done,
    typed.simplifyCompareConstant_keeps_iff⟩

end ConstantCompare

end Graphs

/-! ## `(x | 4) > 4` -/

def setBit : Instruction := ⟨.or, 32, 32, .arg 0, .val 4, .val 0⟩

def aboveBit : Instruction := ⟨.setA, 32, 32, .reg 0, .val 4, .val 0⟩

theorem constantCompare_aboveBit :
    ConstantCompare (straightLine [setBit, aboveBit]) id 1 aboveBit 4 where
  wf := wellFormed_straightLine (by decide)
  defined := rfl
  compare := rfl
  constant := rfl
  small := by decide
  width := by decide
  result := by decide
  operand := by
    intro reg inner found
    cases found
    refine ⟨rfl, fun bits same => ?_⟩
    cases same
    decide

theorem compare_keeps_iff_aboveBit :
    ConstantCompare (straightLine [setBit, aboveBit]) id 1 aboveBit 4 ∧
      (KeepsTarget (straightLine [setBit, aboveBit]) 1 aboveBit
          (simplifyCompareConstant (straightLine [setBit, aboveBit]) 1 aboveBit 4) ↔
        ∀ x c, AboveSetBits (straightLine [setBit, aboveBit]) aboveBit x c →
          ∀ env, Evaluates (straightLine [setBit, aboveBit]).defs env →
            env x % 2 ^ 32 ||| c.toNat ≠ c.toNat) :=
  ⟨constantCompare_aboveBit, (constantCompare_aboveBit.compare_keeps_iff).2⟩

/-- For `x = 0` the comparison is false, but it is taken for true. -/
theorem not_keeps_aboveBit :
    ConstantCompare (straightLine [setBit, aboveBit]) id 1 aboveBit 4 ∧
      ¬KeepsTarget (straightLine [setBit, aboveBit]) 1 aboveBit
        (simplifyCompareConstant (straightLine [setBit, aboveBit]) 1 aboveBit 4) := by
  refine ⟨constantCompare_aboveBit, fun keeps => ?_⟩
  have replaced : simplifyCompareConstant (straightLine [setBit, aboveBit]) 1 aboveBit 4 =
      ⟨straightLine [setBit, aboveBit], .val 1⟩ := rfl
  rw [replaced] at keeps
  have always := (keepsAs_replace_iff constantCompare_aboveBit.wf (before_val 1)).mp keeps
  obtain ⟨env, evaluates, leaves⟩ :=
    constantCompare_aboveBit.wf.ordered.exists_evaluates fun _ => 0
  have zero : env (.arg 0) = 0 := leaves.1 0
  have operand : env (.reg 0) = 4 := by
    rw [evaluates.defined 0 setBit rfl]
    change setBit.eval (env (.arg 0)) (env (.val 4)) _ = 4
    rw [zero, evaluates.constant]
    rfl
  have outcome : env (.reg 1) = 0 := by
    rw [evaluates.defined 1 aboveBit rfl]
    change aboveBit.eval (env (.reg 0)) (env (.val 4)) _ = 0
    rw [operand, evaluates.constant]
    rfl
  have same := always env evaluates
  rw [evaluates.constant, outcome] at same
  exact absurd same (by decide)

end SmatchFormal.Ir
