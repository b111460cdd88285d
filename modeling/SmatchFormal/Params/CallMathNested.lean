import SmatchFormal.Params.CallMathSound

/-!
# Formulas inside of formulas

Reading the argument of a call can evaluate the formulas of other calls.  Every evaluation is
recorded with the stacks before and behind it.
-/

namespace SmatchFormal.Params

open SmatchFormal.Lib SmatchFormal.Ranges List

inductive Operand
  | number (negative : Bool) (digits : List Char) (nonempty : digits ≠ [])
      (decimal : ∀ c ∈ digits, c.isDigit = true)
  | param (num : Nat) (small : num < 2 ^ 31)

structure SpacedOperand where
  lead : Nat
  operand : Operand

def Operand.text : Operand → List Char
  | .number negative digits _ _ => (if negative then ['-'] else []) ++ digits
  | .param num _ => '$' :: Nat.toDigits 10 num

def SpacedOperand.text (spaced : SpacedOperand) : List Char :=
  List.replicate spaced.lead ' ' ++ spaced.operand.text

def Operand.isParam : Operand → Bool
  | .number _ _ _ _ => false
  | .param _ _ => true

/-- A number is the nearest one of `long long`, and `$N` the range of an argument. -/
def Operand.value (argument : Nat → Option RangeList) : Operand → Option RangeList
  | .number negative digits _ _ =>
    some (numberRl (if negative then max (-2 ^ 63) (-(Nat.ofDigitChars 10 digits 0 : Int))
      else min (2 ^ 63 - 1) (Nat.ofDigitChars 10 digits 0 : Int)))
  | .param num _ => argument num

/-- A text that does not go on with the operand: `$N-` and `$N.` start a member. -/
def Operand.Ends (operand : Operand) (rest : List Char) : Prop :=
  Decimal.Ends rest ∧ (operand.isParam = true → rest.head? ≠ some '-' ∧ rest.head? ≠ some '.')

def Formula.Spaced : Formula SpacedOperand → Prop
  | .single _ => True
  | .node left gap op _ =>
    left.Spaced ∧ (op = .minus → left.last.operand.isParam = true → gap ≠ 0)

section Before

variable {α : Type} {spell : α → List Char} {ok other : α → List Char → Prop}

theorem term_before_mono {product : Term α}
    (imp : ∀ a ∈ product.operands, ∀ rest, ok a rest → other a rest) {rest : List Char}
    (before : product.Before spell ok rest) : product.Before spell other rest := by
  induction product generalizing rest with
  | leaf operand => exact imp operand mem_cons_self rest before
  | node left gap op operand ih =>
    refine ⟨ih (fun a member => imp a (mem_append_left _ member)) before.1, ?_⟩
    exact imp operand (mem_append_right _ mem_cons_self) rest before.2

theorem formula_before_mono {formula : Formula α}
    (imp : ∀ a ∈ formula.operands, ∀ rest, ok a rest → other a rest) {rest : List Char}
    (before : formula.Before spell ok rest) : formula.Before spell other rest := by
  induction formula generalizing rest with
  | single product => exact term_before_mono imp before
  | node left gap op product ih =>
    exact ⟨ih (fun a member => imp a (mem_append_left _ member)) before.1,
      term_before_mono (fun a member => imp a (mem_append_right _ member)) before.2⟩

/-- Only the operand at the end stands before the rest. -/
theorem term_before (factors : ∀ a gap op tail, ok a (operatorText gap (.mul op) ++ tail))
    {product : Term α} {rest : List Char} (last : ok product.last rest) :
    product.Before spell ok rest := by
  induction product generalizing rest with
  | leaf operand => exact last
  | node left gap op operand ih => exact ⟨ih (factors _ gap op _), last⟩

/-- The text behind an operator starts with a space or the operator. -/
theorem operatorText_head (gap : Nat) (op : Operator) (tail : List Char) :
    (operatorText gap op ++ tail).head? = some (if gap = 0 then op.char else ' ') := by
  unfold operatorText
  cases gap with
  | zero => rfl
  | succ gap => rfl

theorem operand_ends (operand : Operand) (gap : Nat) (op : Operator) (tail : List Char)
    (spaced : op = .add .minus → operand.isParam = true → gap ≠ 0) :
    operand.Ends (operatorText gap op ++ tail) := by
  have head := operatorText_head gap op tail
  constructor
  · intro c same
    rw [Option.mem_def, head] at same
    rw [← Option.some.inj same]
    split_ifs
    · cases op with
      | add op => cases op <;> decide
      | mul op => cases op <;> decide
    · decide
  · intro param
    rw [head]
    by_cases none : gap = 0
    · rw [if_pos none]
      cases op with
      | add op =>
        cases op with
        | plus => decide
        | minus => exact absurd none (spaced rfl param)
      | mul op => cases op <;> decide
    · rw [if_neg none]
      decide

theorem formula_before {formula : Formula SpacedOperand} {rest : List Char}
    (spaced : formula.Spaced) (last : formula.last.operand.Ends rest) :
    formula.Before SpacedOperand.text (fun spaced rest => spaced.operand.Ends rest) rest := by
  have factors : ∀ (a : SpacedOperand) (gap : Nat) (op : MulOp) (tail : List Char),
      a.operand.Ends (operatorText gap (.mul op) ++ tail) := by
    intro a gap op tail
    refine operand_ends a.operand gap (.mul op) tail ?_
    intro wrong
    cases wrong
  induction formula generalizing rest with
  | single product => exact term_before factors last
  | node left gap op product ih =>
    refine ⟨ih spaced.1 (operand_ends _ gap (.add op) _ ?_), term_before factors last⟩
    intro minus
    exact spaced.2 (Operator.add.inj minus)

theorem operand_ends_close (operand : Operand) {rest : List Char}
    (closed : rest = [] ∨ rest = [']']) : operand.Ends rest := by
  rcases closed with rfl | rfl
  · exact ⟨Decimal.ends_nil, fun _ => by decide⟩
  · exact ⟨Decimal.ends_cons (by decide) [], fun _ => by decide⟩

end Before

section Read

variable {Entry : Type} {enters keeps : Entry → Prop} {call : Call Entry}
  {argument : Nat → Option RangeList}

/-- Reading the arguments of a call gives their ranges and leaves the stacks. -/
def ArgumentsRead (enters keeps : Entry → Prop) (call : Call Entry)
    (argument : Nat → Option RangeList) : Prop :=
  ∀ num : Nat, (call.isCall = false ∨ call.args[num]? = none) ∧ argument num = none ∨
    ∃ arg rl, call.isCall = true ∧ call.args[num]? = some arg ∧ argument num = some rl ∧
      ∀ machine, (arg.absolute machine).All enters →
        (arg.absolute machine).value = (rl, machine) ∧ (arg.absolute machine).All keeps

theorem skipSpaces_digit {c : Char} (rest : List Char) (visible : c ≠ ' ') :
    skipSpaces (c :: rest) = c :: rest := by
  unfold skipSpaces
  rw [dropWhile_cons_of_neg]
  rw [beq_eq_false_iff_ne.mpr visible]
  exact Bool.false_ne_true

theorem readRlFromVar_param {num : Nat} (small : num < 2 ^ 31) {rest : List Char}
    (ends : Decimal.Ends rest) (machine : Stacks) :
    readRlFromVar call ('$' :: (Nat.toDigits 10 num ++ rest)) machine =
      if call.isCall then readArgument call (num : Int) rest machine else pure (none, machine) := by
  have read := @Decimal.strtoll_decimalText (num : Int) (by omega) (by omega) rest ends
  rw [Decimal.decimalText_natCast] at read
  unfold readRlFromVar
  rw [tail_cons, read]
  cases call.isCall with
  | true => rw [if_neg (by decide), if_pos rfl]
  | false => rw [if_pos (by decide), if_neg Bool.false_ne_true]

theorem argument_natCast {num : Nat} (small : num < 2 ^ 31) :
    call.argument (Decimal.toInt32 (num : Int)) = call.args[num]? := by
  unfold Call.argument
  rw [Decimal.toInt32_of_mem (by omega) (by omega), if_neg (by omega), Int.toNat_natCast]

theorem readArgument_none {param : Int} (p : List Char) (machine : Stacks)
    (missing : call.argument (Decimal.toInt32 param) = none) :
    readArgument call param p machine = pure (none, machine) := by
  unfold readArgument
  rw [missing]

section

variable {param : Int} {arg : CallArg Entry} (machine : Stacks)
  (found : call.argument (Decimal.toInt32 param) = some arg)
include machine found

theorem readArgument_some {p : List Char} (plain : p.head? ≠ some '-' ∧ p.head? ≠ some '.') :
    readArgument call param p machine =
      arg.absolute machine >>= fun read => pure (some (read.1, p), read.2) := by
  unfold readArgument
  rw [found]
  exact if_pos plain

theorem readArgument_member {p : List Char} (member : ¬ (p.head? ≠ some '-' ∧ p.head? ≠ some '.')) :
    readArgument call param p machine = pure (memberRl arg.toArgVar p, machine) := by
  unfold readArgument
  rw [found]
  exact if_neg member

end

theorem param_reads {num : Nat} (small : num < 2 ^ 31) {rest : List Char}
    (ends : (Operand.param num small).Ends rest)
    (arguments : ArgumentsRead enters keeps call argument) (machine : Stacks)
    (every : (readRlFromVar call ('$' :: (Nat.toDigits 10 num ++ rest)) machine).All enters) :
    (readRlFromVar call ('$' :: (Nat.toDigits 10 num ++ rest)) machine).value =
        ((argument num).map fun rl => (rl, rest), machine) ∧
      (readRlFromVar call ('$' :: (Nat.toDigits 10 num ++ rest)) machine).All keeps := by
  have plain := ends.2 rfl
  rw [readRlFromVar_param small ends.1] at every ⊢
  rcases arguments num with ⟨missing, none⟩ | ⟨arg, rl, isCall, found, value, reads⟩
  · rw [none]
    rcases missing with isCall | missing
    · rw [isCall, if_neg Bool.false_ne_true]
      exact ⟨rfl, Logged.all_pure _⟩
    · rw [← argument_natCast small] at missing
      rw [readArgument_none rest machine missing, ite_self]
      exact ⟨rfl, Logged.all_pure _⟩
  · rw [← argument_natCast small] at found
    rw [isCall, if_pos rfl, readArgument_some machine found plain] at every ⊢
    rw [Logged.all_bind] at every
    obtain ⟨same, kept⟩ := reads machine every.1
    rw [Logged.value_bind, same, Logged.all_bind, value]
    exact ⟨rfl, kept, Logged.all_pure _⟩

theorem number_start (negative : Bool) {digits rest : List Char} (nonempty : digits ≠ [])
    (decimal : ∀ c ∈ digits, c.isDigit = true) :
    ∃ c tail, (if negative then ['-'] else []) ++ (digits ++ rest) = c :: tail ∧
      c ≠ ' ' ∧ c ≠ '$' := by
  cases negative with
  | true => exact ⟨'-', digits ++ rest, rfl, by decide, by decide⟩
  | false =>
    obtain ⟨c, tail, rfl⟩ := exists_cons_of_ne_nil nonempty
    have digit := decimal c mem_cons_self
    have other : ∀ d : Char, d.isDigit = false → c ≠ d := by
      rintro d plain rfl
      rw [digit] at plain
      cases plain
    exact ⟨c, tail ++ rest, rfl, other ' ' (by decide), other '$' (by decide)⟩

theorem readVarNum_number (negative : Bool) {digits rest : List Char} (nonempty : digits ≠ [])
    (decimal : ∀ c ∈ digits, c.isDigit = true) (ends : Decimal.Ends rest) (lead : Nat)
    (machine : Stacks) :
    readVarNum call (List.replicate lead ' ' ++
        ((if negative then ['-'] else []) ++ (digits ++ rest))) machine =
      pure (some (numberRl (if negative then max (-2 ^ 63) (-(Nat.ofDigitChars 10 digits 0 : Int))
        else min (2 ^ 63 - 1) (Nat.ofDigitChars 10 digits 0 : Int)), rest), machine) := by
  have read := Decimal.strtoll_decimal negative nonempty decimal ends
  have longer : ¬ rest = (if negative then ['-'] else []) ++ (digits ++ rest) := by
    intro same
    have sizes := congrArg List.length same
    have positive := length_pos_iff.mpr nonempty
    simp only [length_append] at sizes
    omega
  obtain ⟨c, tail, text, space, dollar⟩ := @number_start negative digits rest nonempty decimal
  have visible : skipSpaces (List.replicate lead ' ' ++
      ((if negative then ['-'] else []) ++ (digits ++ rest))) =
      (if negative then ['-'] else []) ++ (digits ++ rest) := by
    rw [skipSpaces_replicate, text, skipSpaces_digit _ space]
  have head : ¬ ((if negative then ['-'] else []) ++ (digits ++ rest)).head? = some '$' := by
    rw [text]
    exact fun same => dollar (Option.some.inj same)
  unfold readVarNum
  rw [visible, if_neg head, read, if_neg longer]

theorem readVarNum_dollar {p tail : List Char} (machine : Stacks)
    (visible : skipSpaces p = '$' :: tail) :
    readVarNum call p machine = readRlFromVar call ('$' :: tail) machine := by
  unfold readVarNum
  rw [visible]
  exact if_pos rfl

theorem operand_reads (spaced : SpacedOperand) {rest : List Char}
    (ends : spaced.operand.Ends rest) (arguments : ArgumentsRead enters keeps call argument) :
    OperandReads enters keeps call spaced.text (spaced.operand.value argument) rest := by
  intro machine
  obtain ⟨lead, operand⟩ := spaced
  cases operand with
  | param num small =>
    have shape : SpacedOperand.text ⟨lead, .param num small⟩ ++ rest =
        List.replicate lead ' ' ++ '$' :: (Nat.toDigits 10 num ++ rest) := by
      simp only [SpacedOperand.text, Operand.text, append_assoc, cons_append]
    have visible : skipSpaces (List.replicate lead ' ' ++ '$' :: (Nat.toDigits 10 num ++ rest)) =
        '$' :: (Nat.toDigits 10 num ++ rest) := by
      rw [skipSpaces_replicate, skipSpaces_digit _ (by decide)]
    rw [shape, readVarNum_dollar machine visible]
    exact param_reads small ends arguments machine
  | number negative digits nonempty decimal =>
    have shape : SpacedOperand.text ⟨lead, .number negative digits nonempty decimal⟩ ++ rest =
        List.replicate lead ' ' ++ ((if negative then ['-'] else []) ++ (digits ++ rest)) := by
      simp only [SpacedOperand.text, Operand.text, append_assoc]
    rw [shape, readVarNum_number negative nonempty decimal ends.1]
    exact fun _ => ⟨rfl, Logged.all_pure _⟩

end Read

/-- One evaluation of a formula: the stacks before it, what it returns, the stacks behind it, and
the value of the formula. -/
structure Evaluation where
  before : Stacks
  result : Option RangeList
  after : Stacks
  expected : Option RangeList
  deriving DecidableEq

/-- What `get_absolute_rl` does for an argument: it gives a range, or evaluates the formula of a
call, with a bracket behind it or without, and goes on with the result. -/
inductive Reading
  | done (rl : RangeList)
  | evaluate (isCall : Bool) (count : Nat) (arg : Fin count → Reading) (vars : Fin count → ArgVar)
      (formula : Formula SpacedOperand) (spaced : formula.Spaced) (bracket : Bool)
      (next : Option RangeList → Reading)

def closing (bracket : Bool) : List Char := if bracket then [']'] else []

def argumentRl (isCall : Bool) {count : Nat} (values : Fin count → RangeList) (num : Nat) :
    Option RangeList :=
  if inside : num < count then if isCall then some (values ⟨num, inside⟩) else none else none

def Reading.value : Reading → RangeList
  | .done rl => rl
  | .evaluate isCall _ arg _ formula _ _ next =>
    (next (formula.value fun spaced => spaced.operand.value
      (argumentRl isCall fun num => (arg num).value))).value

def Reading.run : Reading → Stacks → Logged Evaluation (RangeList × Stacks)
  | .done rl, machine => pure (rl, machine)
  | .evaluate isCall count arg vars formula _ bracket next, machine =>
    parseCallMathRl ⟨isCall, List.ofFn fun num : Fin count => ⟨vars num, (arg num).run⟩⟩
        (formula.text SpacedOperand.text ++ closing bracket) machine >>= fun parsed =>
      (⟨(), [⟨machine, parsed.1, parsed.2, formula.value fun spaced => spaced.operand.value
        (argumentRl isCall fun num => (arg num).value)⟩]⟩ : Logged Evaluation Unit) >>= fun _ =>
      (next parsed.1).run parsed.2

def Evaluation.Keeps (evaluation : Evaluation) : Prop :=
  evaluation.result = evaluation.expected ∧ evaluation.after = evaluation.before

def Evaluation.Enters (evaluation : Evaluation) : Prop :=
  evaluation.before.ops = [] ∧ (evaluation.expected = none → evaluation.before.rls = [])

section Leaves

variable {Entry : Type} {holds : Entry → Prop} {call : Call Entry}

def Leaves (run : Logged Entry (Option RangeList × Stacks)) : Prop :=
  run.value.2.ops = [] ∧ (run.value.1 = none → run.value.2.rls = [])

theorem afterOperand_leaves {next : List Char → Stacks → Logged Entry (Option RangeList × Stacks)}
    (later : ∀ c machine, Leaves (next c machine)) (c : List Char) (machine : Stacks) :
    Leaves (afterOperand next c machine) := by
  unfold afterOperand
  split_ifs with ends
  · exact ⟨popOps_zero_ops _ _, fun none => by cases none⟩
  · cases readOp c with
    | none => exact ⟨rfl, fun _ => rfl⟩
    | some read => exact later _ _

theorem parseLoop_leaves (fuel : Nat) (c : List Char) (machine : Stacks) :
    Leaves (parseLoop call fuel c machine) := by
  induction fuel generalizing c machine with
  | zero => exact ⟨rfl, fun _ => rfl⟩
  | succ fuel ih =>
    unfold parseLoop Leaves
    rw [Logged.value_bind]
    cases (readVarNum call c machine).value.1 with
    | none => exact ⟨rfl, fun _ => rfl⟩
    | some read => exact afterOperand_leaves ih _ _

theorem argument_mem {num : Int} {arg : CallArg Entry} (found : call.argument num = some arg) :
    arg ∈ call.args := by
  unfold Call.argument at found
  split_ifs at found
  exact mem_of_getElem? found

section

variable (args : ∀ arg ∈ call.args, ∀ machine, (arg.absolute machine).All holds)
include args

theorem readArgument_all (param : Int) (p : List Char) (machine : Stacks) :
    (readArgument call param p machine).All holds := by
  cases found : call.argument (Decimal.toInt32 param) with
  | none =>
    rw [readArgument_none p machine found]
    exact Logged.all_pure _
  | some arg =>
    by_cases plain : p.head? ≠ some '-' ∧ p.head? ≠ some '.'
    · rw [readArgument_some machine found plain]
      exact Logged.all_bind.mpr ⟨args arg (argument_mem found) machine, Logged.all_pure _⟩
    · rw [readArgument_member machine found plain]
      exact Logged.all_pure _

theorem readVarNum_all (c : List Char) (machine : Stacks) :
    (readVarNum call c machine).All holds := by
  unfold readVarNum readRlFromVar
  dsimp only
  split_ifs
  · exact Logged.all_pure _
  · exact readArgument_all args _ _ machine
  · exact Logged.all_pure _
  · exact Logged.all_pure _

theorem parseLoop_all (fuel : Nat) (c : List Char) (machine : Stacks) :
    (parseLoop call fuel c machine).All holds := by
  induction fuel generalizing c machine with
  | zero => exact Logged.all_pure _
  | succ fuel ih =>
    unfold parseLoop
    refine Logged.all_bind.mpr ⟨readVarNum_all args c machine, ?_⟩
    cases (readVarNum call c machine).value.1 with
    | none => exact Logged.all_pure _
    | some read =>
      dsimp only
      unfold afterOperand
      split_ifs
      · exact Logged.all_pure _
      · cases readOp read.2 with
        | none => exact Logged.all_pure _
        | some op => exact ih _ _

end

end Leaves

theorem all_record {holds : Evaluation → Prop} (evaluation : Evaluation) :
    (⟨(), [evaluation]⟩ : Logged Evaluation Unit).All holds ↔ holds evaluation := by
  constructor
  · intro every
    exact every evaluation mem_cons_self
  · intro one entry member
    rw [mem_singleton.mp member]
    exact one

theorem run_keeps_enters (reading : Reading) (machine : Stacks) :
    (reading.run machine).All fun evaluation => evaluation.Keeps → evaluation.Enters := by
  induction reading generalizing machine with
  | done rl => exact Logged.all_pure _
  | evaluate isCall count arg vars formula spaced bracket next argIH nextIH =>
    unfold Reading.run
    rw [Logged.all_bind, Logged.all_bind, all_record]
    refine ⟨?_, ?_, nextIH _ _⟩
    · refine parseLoop_all ?_ _ _ _
      intro one member machine
      obtain ⟨num, rfl⟩ := (mem_ofFn' _ _).mp member
      exact argIH num machine
    · rintro ⟨result, after⟩
      have leaves := @parseLoop_leaves Evaluation
        ⟨isCall, List.ofFn fun num : Fin count => ⟨vars num, (arg num).run⟩⟩
        ((formula.text SpacedOperand.text ++ closing bracket).length + 1)
        (formula.text SpacedOperand.text ++ closing bracket) machine
      dsimp only at result after
      unfold Evaluation.Enters
      dsimp only
      rw [← after, ← result]
      exact leaves

/-- The arguments of a call are read when their runs go well. -/
theorem arguments_read (isCall : Bool) {count : Nat} {arg : Fin count → Reading}
    (vars : Fin count → ArgVar)
    (reads : ∀ num machine, ((arg num).run machine).All Evaluation.Enters →
      ((arg num).run machine).value = ((arg num).value, machine) ∧
        ((arg num).run machine).All Evaluation.Keeps) :
    ArgumentsRead Evaluation.Enters Evaluation.Keeps
      ⟨isCall, List.ofFn fun num : Fin count => ⟨vars num, (arg num).run⟩⟩
      (argumentRl isCall fun num => (arg num).value) := by
  intro num
  unfold argumentRl
  dsimp only
  rw [List.getElem?_ofFn]
  by_cases inside : num < count
  · rw [dif_pos inside, dif_pos inside]
    cases isCall with
    | false => exact Or.inl ⟨Or.inl rfl, rfl⟩
    | true => exact Or.inr ⟨_, _, rfl, rfl, rfl, fun machine => reads ⟨num, inside⟩ machine⟩
  · rw [dif_neg inside, dif_neg inside]
    exact Or.inl ⟨Or.inr rfl, rfl⟩

/-- Stacks that are entered well are left as they were. -/
theorem formulaEnd_eq {machine : Stacks} {result : Option RangeList} (empty : machine.ops = [])
    (missing : result = none → machine.rls = []) :
    formulaEnd machine result = (result, machine) := by
  cases result with
  | none =>
    obtain ⟨rls, ops⟩ := machine
    cases empty
    cases missing rfl
    rfl
  | some rl => rfl

/-- Evaluations that are entered well keep, and the range is read. -/
theorem run_enters_keeps (reading : Reading) (machine : Stacks)
    (every : (reading.run machine).All Evaluation.Enters) :
    (reading.run machine).value = (reading.value, machine) ∧
      (reading.run machine).All Evaluation.Keeps := by
  induction reading generalizing machine with
  | done rl => exact ⟨rfl, Logged.all_pure _⟩
  | evaluate isCall count arg vars formula spaced bracket next argIH nextIH =>
    unfold Reading.run at every ⊢
    rw [Logged.all_bind, Logged.all_bind, all_record] at every
    obtain ⟨parsed, ⟨empty, missing⟩, later⟩ := every
    dsimp only at empty missing
    have closed : closing bracket = [] ∨ closing bracket = [']'] := by
      unfold closing
      cases bracket with
      | true => exact Or.inr rfl
      | false => exact Or.inl rfl
    have arguments := arguments_read isCall vars argIH
    have whole := parse_evaluates formula machine closed
      (formula_before_mono (fun a _ rest ends => operand_reads a ends arguments)
        (formula_before spaced (operand_ends_close _ closed))) empty
    obtain ⟨value, -, kept⟩ := whole parsed
    rw [Logged.value_pure, formulaEnd_eq empty missing] at value
    rw [value] at later
    obtain ⟨range, keeps⟩ := nextIH _ _ later
    constructor
    · rw [Logged.value_bind, Logged.value_bind, value]
      exact range
    · rw [Logged.all_bind, Logged.all_bind, all_record, value]
      exact ⟨kept (Logged.all_pure _), ⟨rfl, rfl⟩, keeps⟩

/-- In every run the evaluations return their values and leave the stacks as they were, exactly when
each of them is entered without pending operators, and with empty stacks when it fails.  Then the
range is read. -/
theorem callMath_keeps_iff (reading : Reading) (machine : Stacks) :
    ((reading.run machine).All Evaluation.Keeps ↔ (reading.run machine).All Evaluation.Enters) ∧
      ((reading.run machine).All Evaluation.Enters →
        (reading.run machine).value = (reading.value, machine)) := by
  refine ⟨⟨?_, ?_⟩, ?_⟩
  · intro keeps evaluation member
    exact run_keeps_enters reading machine evaluation member (keeps evaluation member)
  · intro enters
    exact (run_enters_keeps reading machine enters).2
  · intro enters
    exact (run_enters_keeps reading machine enters).1

theorem oneDigit_ne_nil (c : Char) : [c] ≠ [] := cons_ne_nil c []

theorem oneDigit_digits (c : Char) (decimal : c.isDigit = true) : ∀ d ∈ [c], d.isDigit = true :=
  fun _ member => (mem_singleton.mp member) ▸ decimal

def Operand.digit (c : Char) (decimal : c.isDigit = true) : Operand :=
  .number false [c] (oneDigit_ne_nil c) (oneDigit_digits c decimal)

def nestedSum : Reading :=
  .evaluate true 1
    (fun _ => .evaluate false 0 Fin.elim0 Fin.elim0
      (.node (.single (.leaf ⟨0, .digit '3' rfl⟩)) 1 .plus
        (.leaf ⟨1, .digit '4' rfl⟩))
      ⟨trivial, fun wrong => by cases wrong⟩ true fun result => .done (result.getD []))
    (fun _ => ⟨false, none, fun _ => none⟩)
    (.single (.node (.leaf ⟨0, .digit '2' rfl⟩) 0 .times
      ⟨0, .param 0 (by decide)⟩))
    trivial true fun result => .done (result.getD [])

/-- The sum takes the two and the product of the outer formula off the stacks. -/
theorem nestedSum_loses :
    (nestedSum.run ⟨[], []⟩).value = (numberRl 10, ⟨[], []⟩) ∧ nestedSum.value = numberRl 14 ∧
      ¬ (nestedSum.run ⟨[], []⟩).All Evaluation.Keeps := by
  have first : (nestedSum.run ⟨[], []⟩).log.map (fun evaluation => evaluation.before.ops) =
      [[.mul .times], []] := by decide
  refine ⟨by decide, by decide, ?_⟩
  intro keeps
  have empty : ∀ ops ∈ (nestedSum.run ⟨[], []⟩).log.map fun evaluation => evaluation.before.ops,
      ops = [] := by
    intro ops member
    obtain ⟨evaluation, inside, rfl⟩ := mem_map.mp member
    exact (run_keeps_enters nestedSum _ evaluation inside (keeps evaluation inside)).1
  rw [first] at empty
  exact absurd (empty _ mem_cons_self) (by decide)

end SmatchFormal.Params
