import SmatchFormal.Ir.CastMask
import SmatchFormal.Ir.FactorOrder

/-!
# Instructions that read some bits of an operand

A truncation, an `AND` with a constant and a shift by a constant do not read all bits of
their first operand.  Parts of an `OR`, or of a shift of one, that they do not read can go.
-/

namespace SmatchFormal.Ir

open Function

section Edits

variable {graph : Graph} {number : Nat → Nat} {target : Nat} {insn : Instruction} {reg : Nat}
  {inner : Instruction}

theorem keepsCast_none : KeepsCast graph target insn ⟨graph, .reg target⟩ :=
  keepsCast_of_keepsTarget BitOperation.keeps_none

theorem keepsCast_replace (wf : graph.WellFormed number) {pseudo : Pseudo}
    (before : Before number target pseudo)
    (same : ∀ value, Evaluates graph.defs value → ∀ i < insn.size,
      (value pseudo).testBit i = (value (.reg target)).testBit i) :
    KeepsCast graph target insn ⟨graph, pseudo⟩ := by
  refine keepsCast_of_keepsTarget ((keepsAs_replace_iff wf before).mpr fun value evaluates => ?_)
  exact mod_two_pow_eq_iff.mpr (same value evaluates)

theorem keepsCast_retarget_iff (wf : graph.WellFormed number)
    (defined : graph.defs target = some insn) {new : Instruction}
    (before : ∀ slot pseudo, (slot, pseudo) ∈ new.operands → Before number target pseudo) :
    KeepsCast graph target insn (graph.retarget target new) ↔
      ∀ value, Evaluates graph.defs value → ∀ i < insn.size,
        (new.eval (value new.src1) (value new.src2) (value new.src3)).testBit i =
          (value (.reg target)).testBit i := by
  have same : KeepsCast graph target insn (graph.retarget target new) ↔
      KeepsTarget graph target insn (graph.retarget target new) := by
    refine ⟨fun keeps => ⟨fun reg other changed => ?_, keeps.2⟩, keepsCast_of_keepsTarget⟩
    exact absurd (update_of_ne other ..) changed
  rw [same]
  refine (keepsAs_target_iff wf defined before).trans ?_
  exact forall_congr' fun value => forall_congr' fun evaluates => mod_two_pow_eq_iff

/-- The instruction of the target and the definition of its first operand are replaced. -/
theorem keepsCast_pair_iff (wf : graph.WellFormed number) (defined : graph.defs target = some insn)
    (found : graph.def? insn.src1 = some (reg, inner)) (once : graph.oneUse reg = true)
    {new newDef : Instruction} (source : new.src1 = .reg reg)
    (operands : ∀ slot pseudo, (slot, pseudo) ∈ new.operands → Before number target pseudo)
    (operandsDef : ∀ slot pseudo, (slot, pseudo) ∈ newDef.operands → Before number reg pseudo) :
    KeepsCast graph target insn ((graph.setDef reg newDef).retarget target new) ↔
      ∀ value, Evaluates graph.defs value → ∀ i < insn.size,
        (new.eval (newDef.eval (value newDef.src1) (value newDef.src2) (value newDef.src3))
          (afterEdit value reg newDef new.src2) (afterEdit value reg newDef new.src3)).testBit i =
            (value (.reg target)).testBit i := by
  obtain ⟨place, definedReg⟩ := def?_eq_some found
  have used : (target, .src1) ∈ graph.users reg :=
    wf.used target insn defined .src1 reg (place ▸ src1_mem_operands insn)
  have less : number reg < number target :=
    before_operand wf defined (src1_mem_operands insn) reg place
  have distinct : reg ≠ target := by
    rintro rfl
    exact lt_irrefl _ less
  have alone : ∀ use ∈ graph.users reg, use.1 = target := by
    intro use member
    rw [eq_of_oneUse once used member]
  have edit : PairEdit graph ((graph.setDef reg newDef).setDef target new) number target reg new
      newDef :=
    { outer := update_self ..
      inner := (update_of_ne distinct ..).trans (update_self ..)
      kept := fun other notTarget notReg =>
        (update_of_ne notTarget ..).trans (update_of_ne notReg ..)
      defined := ⟨by rw [defined]; exact Option.some_ne_none _,
        by rw [definedReg]; exact Option.some_ne_none _⟩
      before := less
      alone := alone
      operands := operands
      operandsDef := operandsDef }
  have same : KeepsCast graph target insn ((graph.setDef reg newDef).retarget target new) ↔
      KeepsTarget graph target insn ((graph.setDef reg newDef).retarget target new) := by
    refine ⟨fun keeps => ⟨fun other notTarget changed => ?_, keeps.2⟩, keepsCast_of_keepsTarget⟩
    by_cases here : other = reg
    · exact here ▸ alone
    · exact absurd (edit.kept other notTarget here) changed
  rw [same]
  refine (edit.moved.keepsAs_iff wf).trans ?_
  refine forall_congr' fun value => forall_congr' fun evaluates => ?_
  have edited : afterEdit value reg newDef new.src1 =
      newDef.eval (value newDef.src1) (value newDef.src2) (value newDef.src3) := by
    rw [source]
    exact update_self ..
  rw [mod_two_pow_eq_iff, edited]

theorem before_of_single {user : Nat} {new : Instruction} {slot : Slot} {pseudo : Pseudo}
    (member : (slot, pseudo) ∈ new.operands) (one : new.opcode.arity = 1)
    (first : Before number user new.src1) : Before number user pseudo := by
  unfold Instruction.operands at member
  rw [one] at member
  cases List.mem_singleton.mp member
  exact first

theorem before_of_two {user : Nat} {new : Instruction} {slot : Slot} {pseudo : Pseudo}
    (member : (slot, pseudo) ∈ new.operands) (two : new.opcode.arity = 2)
    (first : Before number user new.src1) (second : Before number user new.src2) :
    Before number user pseudo := by
  rcases operands_of_arity two member with rfl | rfl
  · exact first
  · exact second

theorem before_withSrc1 (wf : graph.WellFormed number) (defined : graph.defs target = some insn)
    {pseudo : Pseudo} (before : Before number target pseudo) :
    ∀ slot other, (slot, other) ∈ ({ insn with src1 := pseudo } : Instruction).operands →
      Before number target other := by
  intro slot other member
  have cases' : other = pseudo ∨ (slot, other) ∈ insn.operands := by
    unfold Instruction.operands at member ⊢
    have pos : ∃ n, insn.opcode.arity = n + 1 := by
      cases insn.opcode <;> exact ⟨_, rfl⟩
    obtain ⟨n, arity⟩ := pos
    rw [arity] at member ⊢
    rcases List.mem_cons.mp member with same | later
    · cases same
      exact Or.inl rfl
    · exact Or.inr (List.mem_cons_of_mem _ later)
  rcases cases' with rfl | member
  · exact before
  · exact before_operand wf defined member

/-- The value of a comparison is one bit, and does not depend on its width. -/
theorem testBit_compare {new : Instruction} (compare : inner.opcode.isCompare = true)
    (opcode : new.opcode = inner.opcode) (itype : new.itype = inner.itype) (v1 v2 v3 v3' : Nat) :
    new.eval v1 v2 v3 = inner.eval v1 v2 v3' ∧
      ∀ i, 0 < i → (inner.eval v1 v2 v3').testBit i = false := by
  have one : ∀ (holds : Bool) i, 0 < i → (Instruction.truth holds).testBit i = false := by
    intro holds i pos
    obtain ⟨j, rfl⟩ := Nat.exists_eq_succ_of_ne_zero pos.ne'
    cases holds with
    | false => exact Nat.zero_testBit _
    | true =>
      rw [Nat.testBit_succ]
      exact Nat.zero_testBit _
  unfold Instruction.eval
  rw [opcode, itype]
  cases kind : inner.opcode <;> rw [kind] at compare <;> first | exact ⟨rfl, one _⟩ | cases compare

end Edits

inductive Graph.ComputedFrom (graph : Graph) (target : Nat) : Nat → Prop
  | self : ComputedFrom graph target target
  | step {reg used : Nat} {insn : Instruction} {slot : Slot}
      (source : ComputedFrom graph target used) (defined : graph.defs reg = some insn)
      (member : (slot, .reg used) ∈ insn.operands) : ComputedFrom graph target reg

/-- Like `KeepsCast`, and a register that is used for something else than the target keeps its
value. -/
def KeepsRest (graph : Graph) (target : Nat) (insn : Instruction) (result : Simplified) : Prop :=
  (∀ reg, reg ≠ target → result.graph.defs reg ≠ graph.defs reg → graph.OnlyFor target reg) ∧
  ∀ value, Evaluates graph.defs value → ∃ value', Evaluates result.graph.defs value' ∧
    SameLeaves graph.defs value value' ∧
    value' result.value % 2 ^ insn.size = value (.reg target) % 2 ^ insn.size ∧
    ∀ reg, ¬graph.OnlyFor target reg → ¬graph.ComputedFrom target reg →
      value' (.reg reg) = value (.reg reg)

section Rest

variable {graph : Graph} {number : Nat → Nat} {target : Nat} {insn : Instruction}
  {value value' : Pseudo → Nat}

/-- What is edited is used for the target only, so the values that it changes are as well. -/
theorem agree_of_not_onlyFor (wf : graph.WellFormed number) (evaluates : Evaluates graph.defs value)
    {defs' : Nat → Option Instruction} (evaluates' : Evaluates defs' value')
    (leaves : SameLeaves graph.defs value value')
    (edited : ∀ reg, reg ≠ target → defs' reg ≠ graph.defs reg → graph.OnlyFor target reg)
    {reg : Nat} (other : ¬graph.OnlyFor target reg) (apart : ¬graph.ComputedFrom target reg) :
    value' (.reg reg) = value (.reg reg) := by
  -- The induction is on the number: an operand has a smaller one.
  induction h : number reg using Nat.strong_induction_on generalizing reg with
  | _ n ih =>
    subst h
    have different : reg ≠ target := by
      rintro rfl
      exact apart .self
    have kept : defs' reg = graph.defs reg := by
      by_contra changed
      exact other (edited reg different changed)
    cases defined : graph.defs reg with
    | none => exact leaves.2 reg defined
    | some insn =>
      rw [evaluates.defined reg insn defined,
        evaluates'.defined reg insn (kept.trans defined)]
      refine insn.eval_congr fun slot pseudo member => ?_
      refine agree_of_registers evaluates evaluates' leaves ?_
      rintro used rfl
      refine ih _ (wf.ordered reg insn defined slot used member) ?_ ?_ rfl
      · rintro ⟨uses⟩
        exact other (uses _ (wf.used reg insn defined slot used member) different)
      · exact fun source => apart (.step source defined member)

theorem keepsRest_of_keepsCast (wf : graph.WellFormed number) {result : Simplified}
    (keeps : KeepsCast graph target insn result) : KeepsRest graph target insn result := by
  refine ⟨keeps.1, fun value evaluates => ?_⟩
  obtain ⟨value', evaluates', leaves, same⟩ := keeps.2 value evaluates
  refine ⟨value', evaluates', leaves, same, fun reg other apart => ?_⟩
  exact agree_of_not_onlyFor wf evaluates evaluates' leaves keeps.1 other apart

end Rest

theorem agreeOn_bitsMask {size : Nat} (pos : 0 < size) (le : size ≤ 64) {x y : Nat}
    (agree : AgreeOn (bitsMask size) x y) {i : Nat} (inside : i < size) :
    x.testBit i = y.testBit i := by
  refine agree i ?_
  rw [getLsbD_bitsMask i pos le]
  exact decide_eq_true inside

/-- The bits of the operand of a shift that matter for the bits of a mask. -/
theorem agreeOn_shift {sh : Instruction} (shift : sh.opcode = .lsr ∨ sh.opcode = .shl)
    (pos : 0 < sh.size) (le : sh.size ≤ 64) {mask : BitVec 64} {count : Nat} {x y : Nat}
    (agree : AgreeOn (shiftedMask sh mask count) x y) (v3 v3' : Nat) :
    AgreeOn mask (sh.eval x count v3) (sh.eval y count v3') := by
  intro i bit
  have place : i < 64 := by
    by_contra high
    rw [BitVec.getLsbD_of_ge mask i (not_lt.mp high)] at bit
    cases bit
  rcases shift with shift | shift
  · rw [testBit_lsr _ _ _ _ shift, testBit_lsr _ _ _ _ shift]
    by_cases inside : count + i < sh.size
    · rw [agree (count + i) ?_]
      unfold shiftedMask
      rw [if_pos shift, BitVec.getLsbD_and, getLsbD_bitsMask _ pos le, decide_eq_true inside,
        BitVec.getLsbD_shiftLeft, Nat.add_sub_cancel_left, bit]
      simp [show count + i < 64 by omega]
    · rw [decide_eq_false inside, Bool.false_and, Bool.false_and]
  · rw [testBit_shl _ _ _ _ shift, testBit_shl _ _ _ _ shift]
    by_cases inside : i < sh.size ∧ count ≤ i
    · rw [agree (i - count) ?_]
      unfold shiftedMask
      rw [if_neg (by rw [shift]; exact Opcode.noConfusion), BitVec.getLsbD_and,
        getLsbD_bitsMask _ pos le, decide_eq_true (by omega), BitVec.getLsbD_ushiftRight,
        Nat.add_sub_cancel' inside.2, bit, Bool.and_self]
    · rcases not_and_or.mp inside with out | low
      · rw [decide_eq_false out, Bool.false_and, Bool.false_and]
      · rw [decide_eq_false low, Bool.false_and, Bool.false_and]

theorem Covers.refl (mask : BitVec 64) : Covers mask mask := fun _ bit => bit

theorem Covers.shifted {code mask : BitVec 64} (covers : Covers code mask) (sh : Instruction)
    (count : Nat) : Covers (shiftedMask sh code count) (shiftedMask sh mask count) := by
  intro i bit
  unfold shiftedMask at bit ⊢
  rw [BitVec.getLsbD_and, Bool.and_eq_true] at bit ⊢
  refine ⟨bit.1, ?_⟩
  split_ifs at bit ⊢ with lsr
  · rw [BitVec.getLsbD_shiftLeft, Bool.and_eq_true] at bit ⊢
    exact ⟨bit.2.1, covers _ bit.2.2⟩
  · rw [BitVec.getLsbD_ushiftRight] at bit ⊢
    exact covers _ bit.2

/-- The target reads only the bits of the mask of its first operand; its other operands are
constants, if it has any. -/
structure MaskReader (graph : Graph) (number : Nat → Nat) (target : Nat) (insn : Instruction)
    (mask : BitVec 64) : Prop where
  wf : graph.WellFormed number
  typed : graph.Typed
  defined : graph.defs target = some insn
  notSel : insn.opcode ≠ .sel
  within : ∀ i, mask.getLsbD i = true → i < insn.sourceWidth
  reads : ∀ value value' : Pseudo → Nat, (∀ n, value (.val n) = n.toNat) →
    (∀ n, value' (.val n) = n.toNat) → ∀ x y, AgreeOn mask x y →
      ∀ i < insn.size, (insn.eval x (value insn.src2) (value insn.src3)).testBit i =
        (insn.eval y (value' insn.src2) (value' insn.src3)).testBit i

namespace MaskReader

variable {graph : Graph} {number : Nat → Nat} {target : Nat} {insn : Instruction}
  {mask code : BitVec 64} {reg orReg : Nat} {inner union : Instruction} {count : BitVec 64}

section

variable (reader : MaskReader graph number target insn mask)
  (found : graph.def? insn.src1 = some (reg, inner))
include reader found

theorem width : inner.size = insn.sourceWidth := by
  obtain ⟨place, defined⟩ := def?_eq_some found
  exact reader.typed.first target insn reader.defined reader.notSel reg inner place defined

theorem less : number reg < number target :=
  before_operand reader.wf reader.defined (src1_mem_operands insn) reg (def?_eq_some found).1

theorem used : (target, .src1) ∈ graph.users reg :=
  reader.wf.used target insn reader.defined .src1 reg
    ((def?_eq_some found).1 ▸ src1_mem_operands insn)

theorem orContext (opcode : inner.opcode = .or) :
    MaskContext graph number target insn (fun _ => False) target mask reg inner where
  wf := reader.wf
  defined := (def?_eq_some found).2
  opcode := opcode
  within := fun i bit => reader.width found ▸ reader.within i bit
  below := reader.less found
  next := Or.inl rfl
  used := ⟨.src1, reader.used found⟩
  above := fun _ none => none.elim
  uses := fun _ none => none.elim
  only := fun _ none => none.elim
  result := fun {graph' value value'} kept evaluates evaluates' agree => by
    rw [evaluates'.defined target insn ((kept target (Or.inl rfl)).trans reader.defined),
      evaluates.defined target insn reader.defined, mod_two_pow_eq_iff, (def?_eq_some found).1]
    exact reader.reads value' value evaluates'.constant evaluates.constant _ _ agree

theorem orRedirects :
    MaskContext.Redirects graph number target insn target insn mask reg := by
  intro pseudo before agree
  have later : Before number target pseudo :=
    fun nr here => (before nr here).trans (reader.less found)
  refine (keepsCast_retarget_iff reader.wf reader.defined
    (before_withSrc1 reader.wf reader.defined later)).mpr fun value evaluates i inside => ?_
  rw [evaluates.defined target insn reader.defined, (def?_eq_some found).1]
  exact reader.reads value value evaluates.constant evaluates.constant _ _ (agree value evaluates) i
    inside

/-- A shift of an `OR` that the target reads. -/
theorem shiftContext (shift : inner.opcode = .lsr ∨ inner.opcode = .shl)
    (constant : inner.src2 = .val count) (once : graph.oneUse reg = true)
    (foundOr : graph.def? inner.src1 = some (orReg, union)) (opcode : union.opcode = .or) :
    MaskContext graph number target insn (· = reg) reg (shiftedMask inner mask count.toNat) orReg
      union := by
  obtain ⟨place, defined⟩ := def?_eq_some found
  obtain ⟨placeOr, definedOr⟩ := def?_eq_some foundOr
  have widths : 0 < inner.size ∧ inner.size ≤ 64 := by
    have widths := reader.typed.widths reg inner defined
    unfold Instruction.Widths at widths
    rcases shift with shift | shift <;> rw [shift] at widths <;> exact widths
  have uses : ∀ use ∈ graph.users reg, use.1 = target := by
    intro use member
    rw [eq_of_oneUse once (reader.used found) member]
  have less : number orReg < number reg :=
    before_operand reader.wf defined (src1_mem_operands inner) orReg placeOr
  have widthOr : union.size = inner.size := by
    have source := reader.typed.first reg inner defined
      (by rcases shift with shift | shift <;> rw [shift] <;> exact Opcode.noConfusion)
      orReg union placeOr definedOr
    unfold Instruction.sourceWidth at source
    rcases shift with shift | shift <;> rw [shift] at source <;> exact source
  exact
    { wf := reader.wf
      defined := definedOr
      opcode := opcode
      within := fun i bit => by
        unfold shiftedMask at bit
        rw [BitVec.getLsbD_and, Bool.and_eq_true, getLsbD_bitsMask i widths.1 widths.2,
          decide_eq_true_eq] at bit
        exact widthOr ▸ bit.1
      below := less.trans (reader.less found)
      next := Or.inr rfl
      used := ⟨.src1, reader.wf.used reg inner defined .src1 orReg
        (placeOr ▸ src1_mem_operands inner)⟩
      above := fun _ same => same ▸ less
      uses := fun _ same use member => Or.inl (uses use (same ▸ member))
      only := fun _ same => same ▸ onlyFor_of_next uses (Or.inl rfl)
      result := fun {graph' value value'} kept evaluates evaluates' agree => by
        rw [evaluates'.defined target insn ((kept target (Or.inl rfl)).trans reader.defined),
          evaluates.defined target insn reader.defined, mod_two_pow_eq_iff, place]
        refine reader.reads value' value evaluates'.constant evaluates.constant _ _ ?_
        rw [evaluates'.defined reg inner ((kept reg (Or.inr rfl)).trans defined),
          evaluates.defined reg inner defined, constant, evaluates.constant, evaluates'.constant,
          placeOr]
        exact agreeOn_shift shift widths.1 widths.2 agree _ _ }

end

section

variable (reader : MaskReader graph number target insn mask)
include reader

/-- The code in which nothing but the operand of the target is edited. -/
theorem retarget_setDef (different : reg ≠ target) (newDef : Instruction) :
    (graph.setDef reg newDef).retarget target insn = ⟨graph.setDef reg newDef, .reg target⟩ := by
  have same : (graph.setDef reg newDef).defs target = some insn :=
    (update_of_ne different.symm ..).trans reader.defined
  unfold Graph.retarget
  congr 1
  unfold Graph.setDef
  congr 1
  exact (congrArg _ same.symm).trans (update_eq_self _ _)

theorem shiftRedirects (found : graph.def? insn.src1 = some (reg, inner))
    (shift : inner.opcode = .lsr ∨ inner.opcode = .shl) (constant : inner.src2 = .val count)
    (once : graph.oneUse reg = true) (foundOr : graph.def? inner.src1 = some (orReg, union)) :
    MaskContext.Redirects graph number target insn reg inner
      (shiftedMask inner mask count.toNat) orReg := by
  obtain ⟨place, defined⟩ := def?_eq_some found
  have widths : 0 < inner.size ∧ inner.size ≤ 64 := by
    have widths := reader.typed.widths reg inner defined
    unfold Instruction.Widths at widths
    rcases shift with shift | shift <;> rw [shift] at widths <;> exact widths
  have less : number orReg < number reg :=
    before_operand reader.wf defined (src1_mem_operands inner) orReg (def?_eq_some foundOr).1
  have different : reg ≠ target := by
    rintro rfl
    exact lt_irrefl _ (reader.less found)
  intro pseudo before agree
  have earlier : Before number reg pseudo := fun nr here => (before nr here).trans less
  rw [← reader.retarget_setDef different]
  refine (keepsCast_pair_iff reader.wf reader.defined found once place
    (fun slot pseudo member => before_operand reader.wf reader.defined member)
    (before_withSrc1 reader.wf defined earlier)).mpr fun value evaluates i inside => ?_
  rw [evaluates.defined target insn reader.defined, place, evaluates.defined reg inner defined]
  have kept : ∀ n, afterEdit value reg { inner with src1 := pseudo } (.val n) = n.toNat :=
    fun n => (update_of_ne Pseudo.noConfusion ..).trans (evaluates.constant n)
  refine reader.reads _ value kept evaluates.constant _ _ ?_ i inside
  have shifted := agreeOn_shift shift widths.1 widths.2 (agree value evaluates)
    (value inner.src3) (value inner.src3)
  rw [← (def?_eq_some foundOr).1] at shifted
  dsimp only
  rw [constant, evaluates.constant]
  exact shifted

theorem keeps_maskOr (covers : Covers code mask) (found : graph.def? insn.src1 = some (reg, inner))
    (opcode : inner.opcode = .or) :
    KeepsCast graph target insn
      ⟨(simplifyMaskOr graph target insn code reg inner).getD graph, .reg target⟩ := by
  cases changed : simplifyMaskOr graph target insn code reg inner with
  | none => exact keepsCast_none
  | some graph' =>
    exact (reader.orContext found opcode).keeps_simplifyMaskOr reader.typed covers
      (reader.orRedirects found) changed

theorem keeps_maskShift (covers : Covers code mask) (tainted : Nat → Bool)
    (found : graph.def? insn.src1 = some (reg, inner))
    (shift : inner.opcode = .lsr ∨ inner.opcode = .shl) :
    KeepsCast graph target insn
      ⟨(simplifyMaskShift tainted graph reg inner code).getD graph, .reg target⟩ := by
  cases changed : simplifyMaskShift tainted graph reg inner code with
  | none => exact keepsCast_none
  | some graph' =>
    unfold simplifyMaskShift at changed
    cases constant : inner.src2 with
    | reg nr | arg nr =>
      rw [constant] at changed
      cases changed
    | val count =>
      rw [constant] at changed
      obtain ⟨-, changed⟩ := Option.ite_none_left_eq_some.mp changed
      cases foundOr : graph.def? inner.src1 with
      | none =>
        rw [foundOr] at changed
        cases changed
      | some definition =>
        obtain ⟨orReg, union⟩ := definition
        rw [foundOr] at changed
        obtain ⟨tests, changed⟩ := Option.ite_none_right_eq_some.mp changed
        exact (reader.shiftContext found shift constant tests.2 foundOr
          tests.1).keeps_simplifyMaskOr reader.typed (covers.shifted inner count.toNat)
            (reader.shiftRedirects found shift constant tests.2 foundOr) changed

end

end MaskReader

/-- An instruction and the definition of its first operand, whose operands are leaves or
constants. -/
theorem typed_pair {inner insn : Instruction} (source : insn.src1 = .reg 0)
    (width : inner.size = insn.sourceWidth) (widths : inner.Widths ∧ insn.Widths)
    (leaves : (∀ used, inner.src1 ≠ .reg used) ∧ ∀ used, inner.src2 ≠ .reg used)
    (second : insn.opcode.IsBits → ∀ used, insn.src2 ≠ .reg used) :
    (straightLine [inner, insn]).Typed where
  widths := by
    rintro (_ | _ | reg) insn' defined
    · cases defined
      exact widths.1
    · cases defined
      exact widths.2
    · cases defined
  first := by
    rintro (_ | _ | reg) insn' defined - used inner' here definedInner
    · cases defined
      exact absurd here (leaves.1 used)
    · cases defined
      cases source.symm.trans here
      cases definedInner
      exact width
    · cases defined
  second := by
    rintro (_ | _ | reg) insn' defined bits used inner' here definedInner
    · cases defined
      exact absurd here (leaves.2 used)
    · cases defined
      exact absurd here (second bits used)
    · cases defined

end SmatchFormal.Ir
