import SmatchFormal.Comparison.LinksSound
import SmatchFormal.Ranges.Sval

/-!
# Assignments of a sum, a difference or a quotient

After `a = l + r`, `a = l - r` or `a = l / r` the functions `match_assign_add`,
`match_assign_sub` and `match_assign_divide` record how `a` compares with the operands.
-/

namespace SmatchFormal.Links

open SmatchFormal.Stree SmatchFormal.Ranges Comparison List

variable {ε : Type}

def saveLink (tables : Tables ε) (operand : Operand ε) (link : Name) : Tables ε :=
  saveLinkVarSym tables operand.varSym link

/-- The state that `add_comparison` allocates, with the smaller name on the left. -/
def comparedData (left : Operand ε) (comparison : Comparison) (right : Operand ε) :
    CompareData ε :=
  if 0 < strcmp left.var right.var then allocCompareState right (flipComparison comparison) left
  else allocCompareState left comparison right

def addComparison (tables : Tables ε) (left : Operand ε) (comparison : Comparison)
    (right : Operand ε) : Tables ε :=
  let data := comparedData left comparison right
  let tables := tables.setCompare data.name (some data)
  saveLink (saveLink tables data.leftSide data.name) data.rightSide data.name

inductive AssignedBinop where
  | add | sub | div | other

/-- An assignment `left = r_left op r_right` and what smatch knows of its right side: the
absolute minima of the operands, the value of the right one, how the operands compare, and
whether the right one differs from zero and what its implied minimum is. -/
structure BinopAssign (ε : Type) where
  left : Operand ε
  op : AssignedBinop
  rLeft : Operand ε
  rRight : Operand ε
  leftMin : Sval
  rightMin : Sval
  rightValue : Option Sval
  comparison : Comparison
  rightNotZero : Bool
  impliedMin : Option Sval

namespace BinopAssign

def addCall (min : Sval) (other : Operand ε) : List (Comparison × Operand ε) :=
  if min.value > 0 then [(gt, other)] else if min.value = 0 then [(gte, other)] else []

def matchAssignAdd (assign : BinopAssign ε) : List (Comparison × Operand ε) :=
  addCall assign.leftMin assign.rRight ++ addCall assign.rightMin assign.rLeft

def matchAssignSub (assign : BinopAssign ε) : List (Comparison × Operand ε) :=
  if svalIsNegative assign.rightMin then []
  else if assign.rightValue.map Sval.value = some 1 then [(lt, assign.rLeft)]
  else if assign.comparison = gt ∨ assign.comparison = gte then
    [(if assign.rightNotZero then gt else gte, assign.rLeft)]
  else []

def matchAssignDivide (assign : BinopAssign ε) : List (Comparison × Operand ε) :=
  match assign.impliedMin with
  | none => []
  | some min => if min.value ≤ 1 then [] else [(lt, assign.rLeft)]

/-- The calls of `add_comparison` for the left side of the assignment. -/
def calls (assign : BinopAssign ε) : List (Comparison × Operand ε) :=
  match assign.op with
  | .add => assign.matchAssignAdd
  | .sub => assign.matchAssignSub
  | .div => assign.matchAssignDivide
  | .other => []

def matchBinopAssign (assign : BinopAssign ε) (tables : Tables ε) : Tables ε :=
  assign.calls.foldl (fun tables call => addComparison tables assign.left call.1 call.2) tables

/-- The value that is assigned; for another operator the assignment is not looked at. -/
def result (assign : BinopAssign ε) (env : Name → Int) : Int :=
  match assign.op with
  | .add => env assign.rLeft.var + env assign.rRight.var
  | .sub => env assign.rLeft.var - env assign.rRight.var
  | .div => (env assign.rLeft.var).tdiv (env assign.rRight.var)
  | .other => env assign.left.var

def after (assign : BinopAssign ε) (env : Name → Int) : Name → Int :=
  Function.update env assign.left.var (assign.result env)

/-- What is known is true of the values before the assignment, which is between three
variables. -/
structure Correct (assign : BinopAssign ε) (env : Name → Int) : Prop where
  leftDistinct : assign.rLeft.var ≠ assign.left.var
  rightDistinct : assign.rRight.var ≠ assign.left.var
  leftMin : assign.leftMin.val ≤ env assign.rLeft.var
  rightMin : assign.rightMin.val ≤ env assign.rRight.var
  rightValue : ∀ sval, assign.rightValue = some sval → env assign.rRight.var = sval.val
  comparison : assign.comparison.Holds (env assign.rLeft.var) (env assign.rRight.var)
  rightNotZero : assign.rightNotZero = true → env assign.rRight.var ≠ 0
  impliedMin : ∀ min, assign.impliedMin = some min → min.val ≤ env assign.rRight.var

def RecordsTrue (assign : BinopAssign ε) (env : Name → Int) : Prop :=
  ∀ call ∈ assign.calls, (comparedData assign.left call.1 call.2).True (assign.after env)

/-- A difference is recorded as at least as large as its first operand, when the second one
is not negative, only if that one is zero and not known not to be. -/
def SubRight (assign : BinopAssign ε) (env : Name → Int) : Prop :=
  svalIsNegative assign.rightMin = true ∨ assign.rightValue.map Sval.value = some 1 ∨
    (assign.comparison ≠ gt ∧ assign.comparison ≠ gte) ∨ env assign.rRight.var = 0

/-- A quotient is recorded as smaller than its first operand only if that one is positive. -/
def DivideRight (assign : BinopAssign ε) (env : Name → Int) : Prop :=
  (∀ min, assign.impliedMin = some min → min.value ≤ 1) ∨ 0 < env assign.rLeft.var

def RecordsRight (assign : BinopAssign ε) (env : Name → Int) : Prop :=
  match assign.op with
  | .add | .other => True
  | .sub => assign.SubRight env
  | .div => assign.DivideRight env

end BinopAssign

section Records

variable {tables : Tables ε} {left right : Operand ε} {op : Comparison} {env : Name → Int}

theorem comparedData_true_iff (operator : op.IsOperator) :
    (comparedData left op right).True env ↔ op.Holds (env left.var) (env right.var) := by
  unfold comparedData
  split_ifs
  · exact flipComparison_holds operator
  · exact Iff.rfl

theorem saveLink_data (operand : Operand ε) (link other : Name) :
    (saveLink tables operand link).data other = tables.data other :=
  rfl

/-- A record that is true keeps all stored comparisons true. -/
theorem addComparison_allTrue (allTrue : tables.AllTrue env)
    (holds : (comparedData left op right).True env) :
    (addComparison tables left op right).AllTrue env := by
  intro link data found
  unfold addComparison at found
  dsimp only at found
  rw [saveLink_data, saveLink_data] at found
  by_cases own : link = (comparedData left op right).name
  · rw [own, data_setCompare] at found
    rw [← Option.some.inj found]
    exact holds
  · rw [data_setCompare_of_ne _ _ own] at found
    exact allTrue link data found

variable {assign : BinopAssign ε}

theorem matchBinopAssign_allTrue (allTrue : tables.AllTrue (assign.after env))
    (records : assign.RecordsTrue env) :
    (assign.matchBinopAssign tables).AllTrue (assign.after env) := by
  unfold BinopAssign.matchBinopAssign
  unfold BinopAssign.RecordsTrue at records
  generalize assign.calls = calls at records
  induction calls generalizing tables with
  | nil => exact allTrue
  | cons call calls ih =>
    rw [foldl_cons]
    refine ih (addComparison_allTrue allTrue (records call mem_cons_self)) ?_
    exact fun later member => records later (mem_cons_of_mem call member)

end Records

section Assigned

variable {assign : BinopAssign ε} {env : Name → Int} {sval : Sval} {operand : Operand ε}

theorem val_of_value_pos (positive : 0 < sval.value) : sval.val = sval.value := by
  have bounds := sval.val_bounds
  rw [sval.value_eq] at positive ⊢
  omega

theorem val_of_value_zero (zero : sval.value = 0) : sval.val = 0 := by
  have bounds := sval.val_bounds
  rw [sval.value_eq] at zero
  omega

theorem BinopAssign.after_left : assign.after env assign.left.var = assign.result env :=
  Function.update_self _ _ _

theorem BinopAssign.after_other {name : Name} (distinct : name ≠ assign.left.var) :
    assign.after env name = env name :=
  Function.update_of_ne distinct _ _

/-- A recorded comparison is one of the result and an old value. -/
theorem record_true_iff {op : Comparison} (operator : op.IsOperator)
    (distinct : operand.var ≠ assign.left.var) :
    (comparedData assign.left op operand).True (assign.after env) ↔
      op.Holds (assign.result env) (env operand.var) := by
  rw [comparedData_true_iff operator, BinopAssign.after_left, BinopAssign.after_other distinct]

/-- A sum is at least as large as an operand if the other one is not negative. -/
theorem addCall_true (distinct : operand.var ≠ assign.left.var) {other : Int}
    (sum : assign.result env = other + env operand.var) (least : sval.val ≤ other) :
    ∀ call ∈ BinopAssign.addCall sval operand,
      (comparedData assign.left call.1 call.2).True (assign.after env) := by
  intro call member
  unfold BinopAssign.addCall at member
  split_ifs at member with positive zero
  · obtain rfl := mem_singleton.mp member
    have operator : gt.IsOperator := by decide
    rw [record_true_iff operator distinct, sum]
    have value := val_of_value_pos positive
    change env operand.var < other + env operand.var
    omega
  · obtain rfl := mem_singleton.mp member
    have operator : gte.IsOperator := by decide
    rw [record_true_iff operator distinct, sum]
    have value := val_of_value_zero zero
    change env operand.var ≤ other + env operand.var
    omega
  · exact absurd member not_mem_nil

theorem recordsTrue_add (correct : assign.Correct env) (op : assign.op = .add) :
    assign.RecordsTrue env := by
  have sum : assign.result env = env assign.rLeft.var + env assign.rRight.var := by
    unfold BinopAssign.result
    rw [op]
  intro call member
  unfold BinopAssign.calls at member
  rw [op] at member
  rcases mem_append.mp member with first | second
  · exact addCall_true correct.rightDistinct sum correct.leftMin call first
  · exact addCall_true correct.leftDistinct (sum.trans (Int.add_comm _ _)) correct.rightMin call
      second

theorem recordsTrue_sub_iff (correct : assign.Correct env) (op : assign.op = .sub) :
    assign.RecordsTrue env ↔ assign.SubRight env := by
  have difference : assign.result env = env assign.rLeft.var - env assign.rRight.var := by
    unfold BinopAssign.result
    rw [op]
  have calls : assign.calls = assign.matchAssignSub := by
    unfold BinopAssign.calls
    rw [op]
  have only : ∀ {comparison : Comparison}, comparison.IsOperator →
      ((∀ call ∈ [(comparison, assign.rLeft)],
        (comparedData assign.left call.1 call.2).True (assign.after env)) ↔
        comparison.Holds (assign.result env) (env assign.rLeft.var)) := by
    intro comparison operator
    rw [← record_true_iff operator correct.leftDistinct]
    exact forall_mem_singleton
  unfold BinopAssign.RecordsTrue BinopAssign.SubRight
  rw [calls]
  unfold BinopAssign.matchAssignSub
  by_cases negative : svalIsNegative assign.rightMin = true
  · rw [if_pos negative]
    exact iff_of_true (fun call none => absurd none not_mem_nil) (Or.inl negative)
  · rw [if_neg negative, or_iff_right negative]
    have least := correct.rightMin
    have positive : 0 ≤ assign.rightMin.val := by
      rw [svalIsNegative_iff] at negative
      exact not_lt.mp negative
    by_cases one : assign.rightValue.map Sval.value = some 1
    · rw [if_pos one]
      obtain ⟨sval, known, value⟩ := Option.map_eq_some_iff.mp one
      have right := correct.rightValue sval known
      have same := val_of_value_pos (show 0 < sval.value by omega)
      refine iff_of_true ((only (by decide)).mpr ?_) (Or.inl one)
      rw [difference]
      change env assign.rLeft.var - env assign.rRight.var < env assign.rLeft.var
      omega
    · rw [if_neg one, or_iff_right one]
      by_cases greater : assign.comparison = gt ∨ assign.comparison = gte
      · rw [if_pos greater, or_iff_right fun neither => greater.elim neither.1 neither.2]
        cases notZero : assign.rightNotZero with
        | true =>
          have nonzero := correct.rightNotZero notZero
          rw [if_pos rfl, only (by decide), difference]
          refine iff_of_false (fun more => ?_) nonzero
          change env assign.rLeft.var < env assign.rLeft.var - env assign.rRight.var at more
          omega
        | false =>
          rw [if_neg (by decide), only (by decide), difference]
          change env assign.rLeft.var ≤ env assign.rLeft.var - env assign.rRight.var ↔ _
          omega
      · rw [if_neg greater]
        exact iff_of_true (fun call none => absurd none not_mem_nil)
          (Or.inl (not_or.mp greater))

/-- A quotient by at least two is smaller than a positive number only. -/
theorem tdiv_lt_iff {a b : Int} (large : 1 < b) : a.tdiv b < a ↔ 0 < a := by
  constructor
  · intro less
    by_contra low
    have up : a ≤ a.tdiv b := by
      have lift := Int.tdiv_nonneg (show 0 ≤ -a by omega) (show 0 ≤ b by omega)
      have least := Int.tdiv_le_self b (show 0 ≤ -a by omega)
      rw [Int.neg_tdiv] at least
      omega
    omega
  · intro positive
    rw [Int.tdiv_eq_ediv_of_nonneg positive.le]
    exact Int.ediv_lt_self_of_pos_of_ne_one positive (by omega)

theorem recordsTrue_div_iff (correct : assign.Correct env) (op : assign.op = .div) :
    assign.RecordsTrue env ↔ assign.DivideRight env := by
  have quotient : assign.result env = (env assign.rLeft.var).tdiv (env assign.rRight.var) := by
    unfold BinopAssign.result
    rw [op]
  have calls : assign.calls = assign.matchAssignDivide := by
    unfold BinopAssign.calls
    rw [op]
  unfold BinopAssign.RecordsTrue BinopAssign.DivideRight
  rw [calls]
  unfold BinopAssign.matchAssignDivide
  cases implied : assign.impliedMin with
  | none =>
    exact iff_of_true (fun call none => absurd none not_mem_nil)
      (Or.inl fun min none => absurd none (Option.some_ne_none min).symm)
  | some min =>
    dsimp only
    by_cases small : min.value ≤ 1
    · rw [if_pos small]
      exact iff_of_true (fun call none => absurd none not_mem_nil)
        (Or.inl fun other same => Option.some.inj same ▸ small)
    · have least := correct.impliedMin min implied
      have value := val_of_value_pos (show 0 < min.value by omega)
      have operator : lt.IsOperator := by decide
      rw [if_neg small, or_iff_right fun all => small (all min rfl), forall_mem_singleton,
        record_true_iff operator correct.leftDistinct, quotient]
      exact tdiv_lt_iff (by omega)

theorem recordsTrue_iff_recordsRight (correct : assign.Correct env) :
    assign.RecordsTrue env ↔ assign.RecordsRight env := by
  unfold BinopAssign.RecordsRight
  cases op : assign.op with
  | add => exact iff_of_true (recordsTrue_add correct op) trivial
  | sub => exact recordsTrue_sub_iff correct op
  | div => exact recordsTrue_div_iff correct op
  | other =>
    refine iff_of_true (fun call member => ?_) trivial
    unfold BinopAssign.calls at member
    rw [op] at member
    exact absurd member not_mem_nil

/-- The records are true after a sum, after a difference by at most zero or one or without a
known order, and after a quotient of a positive number; then the stored comparisons stay true. -/
theorem recordsTrue_iff (correct : assign.Correct env) :
    (assign.RecordsTrue env ↔ assign.RecordsRight env) ∧
      ∀ tables : Tables ε, tables.AllTrue (assign.after env) → assign.RecordsRight env →
        (assign.matchBinopAssign tables).AllTrue (assign.after env) := by
  have records := recordsTrue_iff_recordsRight correct
  exact ⟨records, fun tables allTrue right => matchBinopAssign_allTrue allTrue (records.mpr right)⟩

def nameA : Name := [97]
def nameL : Name := [108]
def nameR : Name := [114]

/-- The assignment `a = l - r` where smatch knows `r >= 1` and `l > r`. -/
def positiveDifference : BinopAssign Unit where
  left := ⟨none, nameA, []⟩
  op := .sub
  rLeft := ⟨none, nameL, []⟩
  rRight := ⟨none, nameR, []⟩
  leftMin := intCtype.ofInt 2
  rightMin := intCtype.ofInt 1
  rightValue := none
  comparison := gt
  rightNotZero := true
  impliedMin := some (intCtype.ofInt 1)

def fiveThree (name : Name) : Int := if name = nameL then 5 else if name = nameR then 3 else 0

theorem positiveDifference_correct : positiveDifference.Correct fiveThree where
  leftDistinct := by decide
  rightDistinct := by decide
  leftMin := by decide
  rightMin := by decide
  rightValue := by
    intro sval known
    cases known
  comparison := by decide
  rightNotZero := by decide
  impliedMin := by
    intro min known
    obtain rfl := Option.some.inj known
    decide

theorem recordsTrue_iff_positiveDifference :
    positiveDifference.RecordsTrue fiveThree ↔ positiveDifference.RecordsRight fiveThree :=
  (recordsTrue_iff positiveDifference_correct).1

/-- After `a = 5 - 3` it is recorded that `a > l`. -/
theorem positiveDifference_recordsFalse :
    positiveDifference.Correct fiveThree ∧ ¬ positiveDifference.RecordsTrue fiveThree := by
  refine ⟨positiveDifference_correct, fun records => ?_⟩
  have recorded : (gt, positiveDifference.rLeft) ∈ positiveDifference.calls := by
    have calls : positiveDifference.calls = [(gt, positiveDifference.rLeft)] := rfl
    rw [calls]
    exact mem_singleton_self _
  have operator : gt.IsOperator := by decide
  have more := (record_true_iff operator positiveDifference_correct.leftDistinct).mp
    (records _ recorded)
  exact absurd more (by decide)

end Assigned

end SmatchFormal.Links
