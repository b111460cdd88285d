import SmatchFormal.Params.CallMath

/-!
# The order of evaluation

The two stacks evaluate a formula from the left with products first, when no operator of an outer
formula is pending.
-/

namespace SmatchFormal.Params

open SmatchFormal.Lib SmatchFormal.Ranges List

/-! ## The stacks -/

theorem popOps_stop {limit : Nat} {rls : List RangeList} {ops : List Operator}
    (below : ∀ op ∈ ops.head?, opPrecedence (some op) < limit) :
    popOps limit rls ops = ⟨rls, ops⟩ := by
  cases ops with
  | nil => rfl
  | cons op rest => exact if_neg (not_le.mpr (below op rfl))

/-- Operators that are taken off down to a limit are taken off down to a lower one. -/
theorem popOps_popOps {low high : Nat} (le : low ≤ high) (rls : List RangeList)
    (ops : List Operator) :
    popOps low (popOps high rls ops).rls (popOps high rls ops).ops = popOps low rls ops := by
  induction ops generalizing rls with
  | nil => rfl
  | cons op rest ih =>
    by_cases above : high ≤ opPrecedence (some op)
    · have step : popOps high rls (op :: rest) = popOps high (reduceTop op rls) rest :=
        if_pos above
      have step' : popOps low rls (op :: rest) = popOps low (reduceTop op rls) rest :=
        if_pos (le_trans le above)
      rw [step, step', ih]
    · have stop : popOps high rls (op :: rest) = ⟨rls, op :: rest⟩ := if_neg above
      rw [stop]

theorem popOps_zero (rls : List RangeList) (ops : List Operator) :
    popOps 0 rls ops = popOps 1 rls ops := by
  induction ops generalizing rls with
  | nil => rfl
  | cons op rest ih =>
    have positive : 1 ≤ opPrecedence (some op) := by
      cases op with
      | add op => exact Nat.le_refl 1
      | mul op => exact Nat.le_succ 1
    have step : popOps 0 rls (op :: rest) = popOps 0 (reduceTop op rls) rest :=
      if_pos (Nat.zero_le _)
    have step' : popOps 1 rls (op :: rest) = popOps 1 (reduceTop op rls) rest := if_pos positive
    rw [step, step', ih]

theorem popOps_zero_ops (rls : List RangeList) (ops : List Operator) :
    (popOps 0 rls ops).ops = [] := by
  induction ops generalizing rls with
  | nil => rfl
  | cons op rest ih =>
    have step : popOps 0 rls (op :: rest) = popOps 0 (reduceTop op rls) rest :=
      if_pos (Nat.zero_le _)
    rw [step]
    exact ih _

/-! ## Operators in the text -/

theorem skipSpaces_replicate (gap : Nat) (rest : List Char) :
    skipSpaces (List.replicate gap ' ' ++ rest) = skipSpaces rest := by
  unfold skipSpaces
  refine dropWhile_append_of_pos ?_
  intro c member
  rw [(mem_replicate.mp member).2]
  rfl

theorem operatorOf_char (op : Operator) : operatorOf op.char = some op := by
  cases op with
  | add op => cases op <;> decide
  | mul op => cases op <;> decide

theorem readOp_text (gap : Nat) (op : Operator) (rest : List Char) :
    readOp (operatorText gap op ++ rest) = some (op, rest) := by
  have visible : (op.char == ' ') = false := by
    cases op with
    | add op => cases op <;> rfl
    | mul op => cases op <;> rfl
  unfold readOp operatorText
  rw [append_assoc, skipSpaces_replicate]
  unfold skipSpaces
  rw [singleton_append,
    dropWhile_cons_of_neg (by rw [visible]; exact Bool.false_ne_true)]
  dsimp only
  rw [operatorOf_char]
  rfl

theorem operatorText_open (gap : Nat) (op : Operator) (rest : List Char) :
    ¬ (operatorText gap op ++ rest = [] ∨ operatorText gap op ++ rest = [']']) := by
  have sign : op.char ≠ ']' := by
    cases op with
    | add op => cases op <;> decide
    | mul op => cases op <;> decide
  unfold operatorText
  cases gap with
  | zero =>
    rintro (empty | close)
    · cases empty
    · exact sign (List.cons.inj close).1
  | succ gap =>
    rintro (empty | close)
    · cases empty
    · exact absurd (List.cons.inj close).1 (by decide)

section Runs

variable {Entry α β : Type} {enters keeps : Entry → Prop}

/-- When all entries of the log are entered well, a run ends like another one, and adds nothing to
its log but what keeps. -/
def Continues (enters keeps : Entry → Prop) (run next : Logged Entry β) : Prop :=
  run.All enters → run.value = next.value ∧ next.All enters ∧ (next.All keeps → run.All keeps)

theorem Continues.trans {first second third : Logged Entry β}
    (one : Continues enters keeps first second) (two : Continues enters keeps second third) :
    Continues enters keeps first third := by
  intro every
  obtain ⟨value, later, kept⟩ := one every
  obtain ⟨value', later', kept'⟩ := two later
  exact ⟨value.trans value', later', fun all => kept (kept' all)⟩

theorem Continues.bind {first : Logged Entry α} {next : α → Logged Entry β} {a : α}
    (reads : first.All enters → first.value = a ∧ first.All keeps) :
    Continues enters keeps (first >>= next) (next a) := by
  intro every
  obtain ⟨before, after⟩ := Logged.all_bind.mp every
  obtain ⟨rfl, kept⟩ := reads before
  exact ⟨rfl, after, fun all => Logged.all_bind.mpr ⟨kept, all⟩⟩

def OperandReads (enters keeps : Entry → Prop) (call : Call Entry) (text : List Char)
    (result : Option RangeList) (rest : List Char) : Prop :=
  ∀ machine, (readVarNum call (text ++ rest) machine).All enters →
    (readVarNum call (text ++ rest) machine).value =
        (result.map fun rl => (rl, rest), machine) ∧
      (readVarNum call (text ++ rest) machine).All keeps

variable {call : Call Entry} {spell : α → List Char} {read : α → Option RangeList}

def afterRead (next : List Char → Stacks → Logged Entry (Option RangeList × Stacks))
    (rest : List Char) (machine : Stacks) (result : Option RangeList) :
    Logged Entry (Option RangeList × Stacks) :=
  match result with
  | none => pure (none, rlDiscardStacks)
  | some rl => afterOperand next rest ⟨rl :: machine.rls, machine.ops⟩

theorem operand_continues {text rest : List Char} {result : Option RangeList} (fuel : Nat)
    (machine : Stacks) (reads : OperandReads enters keeps call text result rest) :
    Continues enters keeps (parseLoop call (fuel + 1) (text ++ rest) machine)
      (afterRead (parseLoop call fuel) rest machine result) := by
  cases result with
  | none => exact Continues.bind (reads machine)
  | some rl => exact Continues.bind (reads machine)

theorem afterOperand_operator (next : List Char → Stacks → Logged Entry (Option RangeList × Stacks))
    (gap : Nat) (op : Operator) (rest : List Char) (machine : Stacks) :
    afterOperand next (operatorText gap op ++ rest) machine =
      next rest ⟨(rlPopUntil (some op) machine).rls,
        op :: (rlPopUntil (some op) machine).ops⟩ := by
  unfold afterOperand
  rw [if_neg (operatorText_open gap op rest), readOp_text]

/-- The value is on the stack once the operators down to a limit are taken off, and an operand
without a value ends the run. -/
def Evaluates (enters keeps : Entry → Prop) (limit : Nat) (result : Option RangeList)
    (machine : Stacks) (run : Logged Entry (Option RangeList × Stacks))
    (next : Stacks → Logged Entry (Option RangeList × Stacks)) : Prop :=
  match result with
  | none => Continues enters keeps run (pure (none, rlDiscardStacks))
  | some rl => ∃ after, popOps limit after.rls after.ops = ⟨rl :: machine.rls, machine.ops⟩ ∧
      Continues enters keeps run (next after)

theorem term_evaluates (product : Term α) (rest : List Char) (fuel : Nat) (machine : Stacks)
    (reads : product.Before spell
      (fun operand => OperandReads enters keeps call (spell operand) (read operand)) rest)
    (below : ∀ op ∈ machine.ops.head?, opPrecedence (some op) < 2) :
    Evaluates enters keeps 2 (product.value read) machine
      (parseLoop call (fuel + product.size) (product.text spell ++ rest) machine)
      (afterOperand (parseLoop call fuel) rest) := by
  induction product generalizing rest fuel with
  | leaf operand =>
    have round := operand_continues fuel machine reads
    unfold Evaluates Term.value
    cases result : read operand with
    | none =>
      rw [result] at round
      exact round
    | some rl =>
      rw [result] at round
      exact ⟨_, popOps_stop below, round⟩
  | node left gap op operand ih =>
    have first := ih (operatorText gap (.mul op) ++ (spell operand ++ rest)) (fuel + 1) reads.1
    have shape : (Term.node left gap op operand).text spell ++ rest =
        left.text spell ++ (operatorText gap (.mul op) ++ (spell operand ++ rest)) := by
      simp only [Term.text, append_assoc]
    have rounds : fuel + (Term.node left gap op operand).size = fuel + 1 + left.size := by
      simp only [Term.size]
      omega
    rw [shape, rounds]
    unfold Evaluates at first ⊢
    unfold Term.value
    cases value : left.value read with
    | none =>
      rw [value] at first
      exact first
    | some x =>
      rw [value] at first
      obtain ⟨after, popped, goes⟩ := first
      -- the operator takes the product so far off the stacks
      have pushed : rlPopUntil (some (.mul op)) after = ⟨x :: machine.rls, machine.ops⟩ := popped
      rw [afterOperand_operator, pushed] at goes
      have round := operand_continues fuel
        ⟨x :: machine.rls, .mul op :: machine.ops⟩ reads.2
      cases result : read operand with
      | none =>
        rw [result] at round
        exact goes.trans round
      | some y =>
        rw [result] at round
        refine ⟨_, ?_, goes.trans round⟩
        exact popOps_stop below

theorem formula_evaluates (formula : Formula α) (rest : List Char) (fuel : Nat) (machine : Stacks)
    (reads : formula.Before spell
      (fun operand => OperandReads enters keeps call (spell operand) (read operand)) rest)
    (empty : machine.ops = []) :
    Evaluates enters keeps 1 (formula.value read) machine
      (parseLoop call (fuel + formula.size) (formula.text spell ++ rest) machine)
      (afterOperand (parseLoop call fuel) rest) := by
  obtain ⟨rls, ops⟩ := machine
  dsimp only at empty
  subst empty
  induction formula generalizing rest fuel with
  | single product =>
    have whole := term_evaluates product rest fuel ⟨rls, []⟩ reads (fun op same => by cases same)
    unfold Formula.value Formula.text Formula.size
    unfold Evaluates at whole ⊢
    cases value : product.value read with
    | none =>
      rw [value] at whole
      exact whole
    | some x =>
      rw [value] at whole
      obtain ⟨after, popped, goes⟩ := whole
      refine ⟨after, ?_, goes⟩
      rw [← popOps_popOps (by decide : 1 ≤ 2), popped]
      rfl
  | node left gap op product ih =>
    have first := ih (operatorText gap (.add op) ++ (product.text spell ++ rest))
      (fuel + product.size) reads.1
    have shape : (Formula.node left gap op product).text spell ++ rest =
        left.text spell ++ (operatorText gap (.add op) ++ (product.text spell ++ rest)) := by
      simp only [Formula.text, append_assoc]
    have rounds : fuel + (Formula.node left gap op product).size =
        fuel + product.size + left.size := by
      simp only [Formula.size]
      omega
    rw [shape, rounds]
    unfold Evaluates at first ⊢
    unfold Formula.value
    cases value : left.value read with
    | none =>
      rw [value] at first
      exact first
    | some x =>
      rw [value] at first
      obtain ⟨after, popped, goes⟩ := first
      -- the operator takes the sum so far off the stacks
      have pushed : rlPopUntil (some (.add op)) after = ⟨x :: rls, []⟩ := popped
      rw [afterOperand_operator, pushed] at goes
      have second := term_evaluates product rest fuel ⟨x :: rls, [.add op]⟩ reads.2 (by
        intro other same
        rw [← Option.some.inj same]
        exact Nat.lt_succ_self 1)
      unfold Evaluates at second
      cases value' : product.value read with
      | none =>
        rw [value'] at second
        exact goes.trans second
      | some y =>
        rw [value'] at second
        obtain ⟨after', popped', goes'⟩ := second
        refine ⟨after', ?_, goes.trans goes'⟩
        rw [← popOps_popOps (by decide : 1 ≤ 2), popped']
        rfl

theorem term_size_le (product : Term α) : product.size ≤ (product.text spell).length + 1 := by
  induction product with
  | leaf operand => exact Nat.le_add_left _ _
  | node left gap op operand ih =>
    simp only [Term.size, Term.text, operatorText, length_append, length_replicate,
      length_singleton]
    omega

theorem formula_size_le (formula : Formula α) :
    formula.size ≤ (formula.text spell).length + 1 := by
  induction formula with
  | single product => exact term_size_le product
  | node left gap op product ih =>
    have size := @term_size_le α spell product
    simp only [Formula.size, Formula.text, operatorText, length_append,
      length_replicate, length_singleton]
    omega

def formulaEnd (machine : Stacks) (result : Option RangeList) : Option RangeList × Stacks :=
  match result with
  | none => (none, rlDiscardStacks)
  | some rl => (some rl, machine)

/-- A whole formula, with the bracket behind it or without. -/
theorem parse_evaluates (formula : Formula α) {rest : List Char} (machine : Stacks)
    (closed : rest = [] ∨ rest = [']'])
    (reads : formula.Before spell
      (fun operand => OperandReads enters keeps call (spell operand) (read operand)) rest)
    (empty : machine.ops = []) :
    Continues enters keeps (parseCallMathRl call (formula.text spell ++ rest) machine)
      (pure (formulaEnd machine (formula.value read))) := by
  have enough := @formula_size_le α spell formula
  have rounds : (formula.text spell ++ rest).length + 1 =
      (formula.text spell).length + rest.length + 1 - formula.size + formula.size := by
    rw [length_append]
    omega
  have whole := formula_evaluates formula rest
    ((formula.text spell).length + rest.length + 1 - formula.size) machine reads empty
  unfold parseCallMathRl
  rw [rounds]
  unfold Evaluates at whole
  cases value : formula.value read with
  | none =>
    rw [value] at whole
    exact whole
  | some rl =>
    rw [value] at whole
    obtain ⟨after, popped, goes⟩ := whole
    have ends : afterOperand (parseLoop call
        ((formula.text spell).length + rest.length + 1 - formula.size)) rest after =
        pure (formulaEnd machine (some rl)) := by
      unfold afterOperand rlPopUntil opPrecedence
      rw [if_pos closed, popOps_zero, popped]
      rfl
    rw [ends] at goes
    exact goes

end Runs

end SmatchFormal.Params
