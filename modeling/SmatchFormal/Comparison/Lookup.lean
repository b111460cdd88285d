import SmatchFormal.Comparison.Chunks

/-!
# Looking up a comparison

`get_comparison_no_extra` looks for a stored comparison of two expressions, and when there is
none for one of an expression without its last `+ 1` or `- 1`.
-/

namespace SmatchFormal.Links

open SmatchFormal.Stree Comparison

variable {ε : Type}

section Code

-- The values of `get_implied_value`.
variable (implied : Chunk → Option Int)

def isPlusOne : Chunk → Bool
  | .binop _ .plus right => implied right == some 1
  | _ => false

def isMinusOne : Chunk → Bool
  | .binop _ .minus right => implied right == some 1
  | _ => false

def removePlusMinusZero : Chunk → Chunk
  | .binop left .plus right =>
    if implied left = some 0 then removePlusMinusZero right
    else if implied right = some 0 then removePlusMinusZero left
    else .binop left .plus right
  | .binop left .minus right =>
    if implied right = some 0 then removePlusMinusZero left else .binop left .minus right
  | expr => expr

/-- `move_plus_to_minus_helper`: `foo + 1` and `bar` become `foo` and `bar - 1`. -/
def movePlusToMinusHelper (left right : Chunk) : Chunk × Chunk :=
  match left with
  | .binop foo .plus one =>
    if isPlusOne implied left then (foo, .binop right .minus one) else (left, right)
  | _ => (left, right)

def movePlusToMinus (left right : Chunk) : Chunk × Chunk :=
  if isPlusOne implied left && isPlusOne implied right then (left, right)
  else
    let first := movePlusToMinusHelper implied left right
    let second := movePlusToMinusHelper implied first.2 first.1
    (second.2, second.1)

def simplifyBinops (left right : Chunk) : Chunk × Chunk :=
  movePlusToMinus implied (removePlusMinusZero implied left) (removePlusMinusZero implied right)

/-- `get_comparison_strings`; `none` is the null pointer. -/
def getComparisonStrings (tables : Tables ε) : Option Name → Option Name → Comparison
  | some one, some two =>
    if strcmp one two = 0 then equal else getOrigComparison tables one two
  | _, _ => unknown

def leftOf : Chunk → Chunk
  | .binop left _ _ => left
  | expr => expr

/-- The lookup without the one of one of the sides. -/
def strippedComparison (tables : Tables ε) (a b : Chunk) : Comparison :=
  if isPlusOne implied a || isMinusOne implied a then
    getComparisonStrings tables (leftOf a).chunkToVar b.chunkToVar
  else if isPlusOne implied b || isMinusOne implied b then
    getComparisonStrings tables a.chunkToVar (leftOf b).chunkToVar
  else unknown

/-- How `x + 1` compares with `y` when it is known how `x` does. -/
def plusOneComparison : Comparison → Comparison
  | lt => lte
  | equal => gt
  | gte => gt
  | _ => unknown

def minusOneComparison : Comparison → Comparison
  | gt => gte
  | equal => lt
  | lte => lt
  | _ => unknown

def adjustedComparison (a b : Chunk) (ret : Comparison) : Comparison :=
  if isPlusOne implied a || isMinusOne implied b then plusOneComparison ret
  else if isMinusOne implied a || isPlusOne implied b then minusOneComparison ret
  else unknown

def simplifiedComparison (tables : Tables ε) (a b : Chunk) : Comparison :=
  match a.chunkToVar, b.chunkToVar with
  | some one, some two =>
    let ret := getComparisonStrings tables (some one) (some two)
    if ret ≠ unknown then ret
    else
      -- `handle_mod_op` knows nothing as there is no `%`.
      adjustedComparison implied a b (strippedComparison implied tables a b)
  | _, _ => unknown

def getComparisonNoExtra (tables : Tables ε) (a b : Chunk) : Comparison :=
  let simplified := simplifyBinops implied a.stripParens b.stripParens
  comparisonIntersection (simplifiedComparison implied tables simplified.1 simplified.2) unknown

end Code

section Naming

variable {vals : Name → Int} {expr expr' : Chunk} {name : Name}

def chunkNames : Set Name := {name | ∃ expr : Chunk, expr.Parsed ∧ expr.chunkToVar = some name}

theorem parsed_of_toVar (parsed : expr.Parsed) (named : expr.toVar = some name) :
    IsVarName name ∧ expr.eval vals = vals name := by
  have stripped : expr.stripParens.Parsed := parsed.stripParens
  have value : expr.stripParens.eval vals = expr.eval vals := Chunk.eval_stripParens
  unfold Chunk.toVar at named
  split at named
  · rename_i found symbol
    rw [symbol] at stripped value
    cases named
    exact ⟨stripped, value.symm⟩
  · cases named

theorem isBinop_of_toVar (named : expr.toVar = some name) : expr.isBinop = false := by
  cases expr with
  | binop left op right => cases named
  | symbol name => rfl
  | value number => rfl
  | parens unop => rfl

/-- The operands of a sum are in another order only when both are variables. -/
theorem reorderAlphabetically_parsed (parsed : expr.Parsed) :
    (Chunk.reorderAlphabetically expr).Parsed ∧
      (Chunk.reorderAlphabetically expr).eval vals = expr.eval vals := by
  unfold Chunk.reorderAlphabetically
  split
  · rename_i left right
    split
    · rename_i leftName rightName leftVar rightVar
      split_ifs
      · exact ⟨parsed, rfl⟩
      · exact ⟨⟨parsed.2.1, parsed.1, isBinop_of_toVar leftVar⟩, Int.add_comm _ _⟩
    · exact ⟨parsed, rfl⟩
  · exact ⟨parsed, rfl⟩

/-- A name is the text of an expression with the same value. -/
theorem text_of_chunkToVar (parsed : expr.Parsed) (named : expr.chunkToVar = some name)
    (vals : Name → Int) :
    ∃ printed : Chunk, printed.Parsed ∧ printed.toStr = name ∧
      printed.eval vals = expr.eval vals := by
  have stripped : expr.stripParens.Parsed := parsed.stripParens
  have value : expr.stripParens.eval vals = expr.eval vals := Chunk.eval_stripParens
  unfold Chunk.chunkToVar Chunk.chunkHelper at named
  cases found : expr.stripParens.toVar with
  | some var =>
    rw [found] at named
    obtain rfl := Option.some.inj named
    obtain ⟨isVariable, eval⟩ := parsed_of_toVar stripped found
    exact ⟨.symbol var, isVariable, rfl, eval.symm.trans value⟩
  | none =>
    rw [found] at named
    dsimp only at named
    split_ifs at named
    obtain rfl := Option.some.inj named
    obtain ⟨reordered, eval⟩ := reorderAlphabetically_parsed stripped
    exact ⟨_, reordered, rfl, eval.trans value⟩

theorem ends_nil : Ends [] :=
  ⟨fun _ _ none => absurd none.symm (List.cons_ne_nil _ _),
    fun _ _ none => absurd none.symm (List.cons_ne_nil _ _)⟩

theorem ends_vs (name : Name) : Ends (vs ++ name) := by
  refine ⟨stops_cons space_not_plain, fun op later same => ?_⟩
  have second := (List.cons.inj (List.cons.inj same).2).1
  cases op with
  | plus => exact absurd second (by decide)
  | minus => exact absurd second (by decide)

/-- Expressions of the same name have the same value. -/
theorem eval_eq_of_name (parsed : expr.Parsed) (parsed' : expr'.Parsed)
    (named : expr.chunkToVar = some name) (named' : expr'.chunkToVar = some name) :
    expr.eval vals = expr'.eval vals := by
  obtain ⟨one, oneParsed, text, eval⟩ := text_of_chunkToVar parsed named vals
  obtain ⟨two, twoParsed, text', eval'⟩ := text_of_chunkToVar parsed' named' vals
  rw [← eval, ← eval']
  exact (uniqueSum oneParsed two [] [] twoParsed ends_nil ends_nil (by rw [text, text'])).1

/-- The name of a stored comparison tells the names of its operands. -/
theorem chunkNames_unambiguous : Unambiguous chunkNames := by
  rintro a ⟨first, firstParsed, firstNamed⟩ b - c ⟨third, thirdParsed, thirdNamed⟩ d - same
  let vals : Name → Int := fun _ => 0
  obtain ⟨one, oneParsed, rfl, -⟩ := text_of_chunkToVar firstParsed firstNamed vals
  obtain ⟨two, twoParsed, rfl, -⟩ := text_of_chunkToVar thirdParsed thirdNamed vals
  unfold stateName at same
  have rests := (@uniqueSum vals one oneParsed two _ _ twoParsed (ends_vs b) (ends_vs d) same).2
  rw [rests] at same
  exact ⟨List.append_cancel_right same, List.append_cancel_left rests⟩

open Classical in
noncomputable def nameValue (vals : Name → Int) (name : Name) : Int :=
  if named : ∃ expr : Chunk, expr.Parsed ∧ expr.chunkToVar = some name then
    named.choose.eval vals
  else 0

theorem nameValue_eq (parsed : expr.Parsed) (named : expr.chunkToVar = some name) :
    nameValue vals name = expr.eval vals := by
  have known : ∃ expr : Chunk, expr.Parsed ∧ expr.chunkToVar = some name := ⟨expr, parsed, named⟩
  unfold nameValue
  rw [dif_pos known]
  exact eval_eq_of_name known.choose_spec.1 parsed known.choose_spec.2 named

end Naming

/-! ## Simplified operands -/

def ImpliedTrue (implied : Chunk → Option Int) (vals : Name → Int) : Prop :=
  ∀ expr value, implied expr = some value → expr.eval vals = value

section Simplify

variable {implied : Chunk → Option Int} {vals : Name → Int} {expr left right a b : Chunk}

theorem isPlusOne_iff :
    isPlusOne implied expr = true ↔
      ∃ foo one, expr = .binop foo .plus one ∧ implied one = some 1 := by
  constructor
  · intro plusOne
    unfold isPlusOne at plusOne
    split at plusOne
    · exact ⟨_, _, rfl, beq_iff_eq.mp plusOne⟩
    · cases plusOne
  · rintro ⟨foo, one, rfl, value⟩
    exact beq_iff_eq.mpr value

theorem isMinusOne_iff :
    isMinusOne implied expr = true ↔
      ∃ foo one, expr = .binop foo .minus one ∧ implied one = some 1 := by
  constructor
  · intro minusOne
    unfold isMinusOne at minusOne
    split at minusOne
    · exact ⟨_, _, rfl, beq_iff_eq.mp minusOne⟩
    · cases minusOne
  · rintro ⟨foo, one, rfl, value⟩
    exact beq_iff_eq.mpr value

theorem eval_of_isPlusOne (sound : ImpliedTrue implied vals)
    (plusOne : isPlusOne implied expr = true) :
    expr.eval vals = (leftOf expr).eval vals + 1 := by
  obtain ⟨foo, one, rfl, value⟩ := isPlusOne_iff.mp plusOne
  change foo.eval vals + one.eval vals = foo.eval vals + 1
  rw [sound one 1 value]

theorem eval_of_isMinusOne (sound : ImpliedTrue implied vals)
    (minusOne : isMinusOne implied expr = true) :
    expr.eval vals = (leftOf expr).eval vals - 1 := by
  obtain ⟨foo, one, rfl, value⟩ := isMinusOne_iff.mp minusOne
  change foo.eval vals - one.eval vals = foo.eval vals - 1
  rw [sound one 1 value]

theorem leftOf_parsed (parsed : expr.Parsed) : (leftOf expr).Parsed := by
  cases expr with
  | binop left op right => exact parsed.1
  | symbol name => exact parsed
  | value number => exact parsed
  | parens unop => exact parsed

theorem removePlusMinusZero_parsed (sound : ImpliedTrue implied vals) (parsed : expr.Parsed) :
    (removePlusMinusZero implied expr).Parsed ∧
      (removePlusMinusZero implied expr).eval vals = expr.eval vals := by
  induction expr with
  | symbol name => exact ⟨parsed, rfl⟩
  | value number => exact ⟨parsed, rfl⟩
  | parens unop => exact ⟨parsed, rfl⟩
  | binop left op right ihLeft ihRight =>
    cases op with
    | plus =>
      have sum : (Chunk.binop left .plus right).eval vals =
          left.eval vals + right.eval vals := rfl
      unfold removePlusMinusZero
      split_ifs with leftZero rightZero
      · obtain ⟨keeps, value⟩ := ihRight parsed.2.1
        rw [sum, sound left 0 leftZero, Int.zero_add]
        exact ⟨keeps, value⟩
      · obtain ⟨keeps, value⟩ := ihLeft parsed.1
        rw [sum, sound right 0 rightZero, Int.add_zero]
        exact ⟨keeps, value⟩
      · exact ⟨parsed, rfl⟩
    | minus =>
      have difference : (Chunk.binop left .minus right).eval vals =
          left.eval vals - right.eval vals := rfl
      unfold removePlusMinusZero
      split_ifs with rightZero
      · obtain ⟨keeps, value⟩ := ihLeft parsed.1
        rw [difference, sound right 0 rightZero, Int.sub_zero]
        exact ⟨keeps, value⟩
      · exact ⟨parsed, rfl⟩

structure SameOrder (vals : Name → Int) (left right left' right' : Chunk) : Prop where
  leftParsed : left'.Parsed
  rightParsed : right'.Parsed
  difference : left'.eval vals - right'.eval vals = left.eval vals - right.eval vals

theorem movePlusToMinusHelper_sameOrder (leftParsed : left.Parsed) (rightParsed : right.Parsed) :
    SameOrder vals left right (movePlusToMinusHelper implied left right).1
      (movePlusToMinusHelper implied left right).2 := by
  unfold movePlusToMinusHelper
  split
  · rename_i foo one
    split_ifs
    · refine ⟨leftParsed.1, ⟨rightParsed, leftParsed.2⟩, ?_⟩
      change foo.eval vals - (right.eval vals - one.eval vals) =
        foo.eval vals + one.eval vals - right.eval vals
      omega
    · exact ⟨leftParsed, rightParsed, rfl⟩
  · exact ⟨leftParsed, rightParsed, rfl⟩

theorem movePlusToMinus_sameOrder (leftParsed : left.Parsed) (rightParsed : right.Parsed) :
    SameOrder vals left right (movePlusToMinus implied left right).1
      (movePlusToMinus implied left right).2 := by
  unfold movePlusToMinus
  split_ifs
  · exact ⟨leftParsed, rightParsed, rfl⟩
  · have first := @movePlusToMinusHelper_sameOrder implied vals _ _ leftParsed rightParsed
    have second := @movePlusToMinusHelper_sameOrder implied vals _ _ first.rightParsed
      first.leftParsed
    refine ⟨second.rightParsed, second.leftParsed, ?_⟩
    have one := first.difference
    have two := second.difference
    dsimp only
    omega

theorem simplifyBinops_sameOrder (sound : ImpliedTrue implied vals) (leftParsed : left.Parsed)
    (rightParsed : right.Parsed) :
    SameOrder vals left right (simplifyBinops implied left right).1
      (simplifyBinops implied left right).2 := by
  obtain ⟨leftKeeps, leftValue⟩ := removePlusMinusZero_parsed sound leftParsed
  obtain ⟨rightKeeps, rightValue⟩ := removePlusMinusZero_parsed sound rightParsed
  have moved := @movePlusToMinus_sameOrder implied vals _ _ leftKeeps rightKeeps
  refine ⟨moved.leftParsed, moved.rightParsed, ?_⟩
  have difference := moved.difference
  rw [leftValue, rightValue] at difference
  exact difference

theorem holds_of_difference {op : Comparison} {x y x' y' : Int} (same : x - y = x' - y') :
    op.Holds x y ↔ op.Holds x' y' := by
  cases op with
  | lt | unsignedLt => change x < y ↔ x' < y'; omega
  | lte | unsignedLte => change x ≤ y ↔ x' ≤ y'; omega
  | equal => change x = y ↔ x' = y'; omega
  | notEqual => change x ≠ y ↔ x' ≠ y'; omega
  | gte | unsignedGte => change y ≤ x ↔ y' ≤ x'; omega
  | gt | unsignedGt => change y < x ↔ y' < x'; omega
  | unknown | impossible => exact Iff.rfl

end Simplify

/-! ## The lookup -/

def Tables.Filed (tables : Tables ε) : Prop :=
  ∀ link data, tables.data link = some data →
    data.name = link ∧ data.leftVar ∈ chunkNames ∧ data.rightVar ∈ chunkNames

section Strings

variable {tables : Tables ε} {vals : Name → Int} {one two : Chunk} {left right : Name}
  {data : CompareData ε}

theorem Tables.Filed.vars (filed : tables.Filed) (leftChunk : left ∈ chunkNames)
    (rightChunk : right ∈ chunkNames)
    (found : tables.data (stateName left right) = some data) :
    data.leftVar = left ∧ data.rightVar = right := by
  obtain ⟨name, dataLeft, dataRight⟩ := filed _ _ found
  exact chunkNames_unambiguous _ dataLeft _ dataRight _ leftChunk _ rightChunk name

theorem getOrigComparison_holds_of_filed (filed : tables.Filed)
    (allTrue : tables.AllTrue (nameValue vals)) (leftChunk : left ∈ chunkNames)
    (rightChunk : right ∈ chunkNames) :
    (getOrigComparison tables left right).Holds (nameValue vals left) (nameValue vals right) := by
  unfold getOrigComparison
  split_ifs
  · cases found : tables.data (stateName right left) with
    | none => trivial
    | some data =>
      obtain ⟨rfl, rfl⟩ := filed.vars rightChunk leftChunk found
      exact flip_holds (allTrue _ _ found)
  · cases found : tables.data (stateName left right) with
    | none => trivial
    | some data =>
      obtain ⟨rfl, rfl⟩ := filed.vars leftChunk rightChunk found
      exact allTrue _ _ found

/-- What is found under the names of two expressions is true of their values. -/
theorem getComparisonStrings_holds (filed : tables.Filed)
    (allTrue : tables.AllTrue (nameValue vals)) (oneParsed : one.Parsed)
    (twoParsed : two.Parsed) :
    (getComparisonStrings tables one.chunkToVar two.chunkToVar).Holds (one.eval vals)
      (two.eval vals) := by
  cases oneNamed : one.chunkToVar with
  | none => trivial
  | some left =>
    cases twoNamed : two.chunkToVar with
    | none => trivial
    | some right =>
      unfold getComparisonStrings
      dsimp only
      split_ifs with same
      · rw [strcmp_eq_zero_iff.mp same] at oneNamed
        exact eval_eq_of_name oneParsed twoParsed oneNamed twoNamed
      · rw [← nameValue_eq oneParsed oneNamed, ← nameValue_eq twoParsed twoNamed]
        exact getOrigComparison_holds_of_filed filed allTrue ⟨one, oneParsed, oneNamed⟩
          ⟨two, twoParsed, twoNamed⟩

end Strings

/-! ## The ones -/

/-- Both sides are an expression less one, nothing is stored of them as they are, and what is
stored of the left expression and the right side seems to say that the left side is larger. -/
structure Misjudged (implied : Chunk → Option Int) (tables : Tables ε) (vals : Name → Int)
    (a b : Chunk) : Prop where
  left : isMinusOne implied a = true
  right : isMinusOne implied b = true
  named : a.chunkToVar ≠ none
  unstored : getComparisonStrings tables a.chunkToVar b.chunkToVar = unknown
  stored : getComparisonStrings tables (leftOf a).chunkToVar b.chunkToVar = equal ∨
    getComparisonStrings tables (leftOf a).chunkToVar b.chunkToVar = gte
  notLarger : a.eval vals ≤ b.eval vals

section Ones

variable {op : Comparison} {x y : Int}

theorem plusOneComparison_holds (holds : op.Holds x y) :
    (plusOneComparison op).Holds (x + 1) y := by
  cases op with
  | lt => exact Int.add_one_le_of_lt holds
  | equal =>
    change x = y at holds
    change y < x + 1
    omega
  | gte => exact Int.lt_add_one_of_le holds
  | _ => trivial

theorem minusOneComparison_holds (holds : op.Holds x y) :
    (minusOneComparison op).Holds (x - 1) y := by
  cases op with
  | gt => exact Int.le_sub_one_of_lt holds
  | equal =>
    change x = y at holds
    change x - 1 < y
    omega
  | lte => exact Int.sub_one_lt_of_le holds
  | _ => trivial

/-- The table of the other side says too much of an equal or larger number. -/
theorem plusOneComparison_less_iff (holds : op.Holds x y) :
    (plusOneComparison op).Holds (x - 1) y ↔ ¬((op = equal ∨ op = gte) ∧ x - 1 ≤ y) := by
  cases op with
  | lt =>
    change x < y at holds
    change x - 1 ≤ y ↔ _
    exact iff_of_true (by omega) fun wrong => wrong.1.elim Comparison.noConfusion
      Comparison.noConfusion
  | equal =>
    change y < x - 1 ↔ _
    rw [and_iff_right (Or.inl rfl), not_le]
  | gte =>
    change y < x - 1 ↔ _
    rw [and_iff_right (Or.inr rfl), not_le]
  | _ =>
    exact iff_of_true trivial fun wrong => wrong.1.elim Comparison.noConfusion
      Comparison.noConfusion

variable {implied : Chunk → Option Int} {tables : Tables ε} {vals : Name → Int} {a b : Chunk}

theorem not_isMinusOne (plusOne : isPlusOne implied a = true) : isMinusOne implied a = false := by
  obtain ⟨foo, one, rfl, -⟩ := isPlusOne_iff.mp plusOne
  rfl

/-- The lookup without the one of the left side. -/
theorem adjustedComparison_left_iff (sound : ImpliedTrue implied vals)
    (one : (isPlusOne implied a || isMinusOne implied a) = true)
    (holds : op.Holds ((leftOf a).eval vals) (b.eval vals)) :
    (adjustedComparison implied a b op).Holds (a.eval vals) (b.eval vals) ↔
      ¬((isMinusOne implied a = true ∧ isMinusOne implied b = true) ∧ (op = equal ∨ op = gte) ∧
        a.eval vals ≤ b.eval vals) := by
  unfold adjustedComparison
  cases plusOne : isPlusOne implied a with
  | true =>
    rw [Bool.true_or, if_pos rfl, eval_of_isPlusOne sound plusOne, not_isMinusOne plusOne]
    exact iff_of_true (plusOneComparison_holds holds) fun wrong => Bool.noConfusion wrong.1.1
  | false =>
    rw [plusOne, Bool.false_or] at one
    rw [Bool.false_or, one, Bool.true_or, eval_of_isMinusOne sound one]
    cases isMinusOne implied b with
    | true =>
      rw [if_pos rfl, plusOneComparison_less_iff holds]
      exact not_congr (and_iff_right ⟨rfl, rfl⟩).symm
    | false =>
      rw [if_neg Bool.false_ne_true, if_pos rfl]
      exact iff_of_true (minusOneComparison_holds holds) fun wrong =>
        Bool.noConfusion wrong.1.2

/-- The lookup without the one of the right side. -/
theorem adjustedComparison_right (sound : ImpliedTrue implied vals)
    (none : (isPlusOne implied a || isMinusOne implied a) = false)
    (one : (isPlusOne implied b || isMinusOne implied b) = true)
    (holds : op.Holds (a.eval vals) ((leftOf b).eval vals)) :
    (adjustedComparison implied a b op).Holds (a.eval vals) (b.eval vals) := by
  obtain ⟨noPlus, noMinus⟩ := Bool.or_eq_false_iff.mp none
  unfold adjustedComparison
  rw [noPlus, noMinus, Bool.false_or, Bool.false_or]
  cases minusOne : isMinusOne implied b with
  | true =>
    rw [if_pos rfl, eval_of_isMinusOne sound minusOne]
    have moved : a.eval vals + 1 - (leftOf b).eval vals =
        a.eval vals - ((leftOf b).eval vals - 1) := by omega
    exact (holds_of_difference moved).mp (plusOneComparison_holds holds)
  | false =>
    rw [minusOne, Bool.or_false] at one
    rw [if_neg Bool.false_ne_true, if_pos one, eval_of_isPlusOne sound one]
    have moved : a.eval vals - 1 - (leftOf b).eval vals =
        a.eval vals - ((leftOf b).eval vals + 1) := by omega
    exact (holds_of_difference moved).mp (minusOneComparison_holds holds)

theorem simplifiedComparison_holds_iff (sound : ImpliedTrue implied vals)
    (filed : tables.Filed) (allTrue : tables.AllTrue (nameValue vals)) (aParsed : a.Parsed)
    (bParsed : b.Parsed) :
    (simplifiedComparison implied tables a b).Holds (a.eval vals) (b.eval vals) ↔
      ¬Misjudged implied tables vals a b := by
  have direct := getComparisonStrings_holds filed allTrue aParsed bParsed
  have withoutLeft := getComparisonStrings_holds filed allTrue (leftOf_parsed aParsed) bParsed
  have withoutRight := getComparisonStrings_holds filed allTrue aParsed (leftOf_parsed bParsed)
  have noneStored : ∀ one, getComparisonStrings tables one none = unknown := by
    intro one
    cases one <;> rfl
  unfold simplifiedComparison
  cases aNamed : a.chunkToVar with
  | none => exact iff_of_true trivial fun wrong => wrong.named aNamed
  | some one =>
    cases bNamed : b.chunkToVar with
    | none =>
      refine iff_of_true trivial fun wrong => ?_
      have stored := wrong.stored
      rw [bNamed, noneStored] at stored
      exact stored.elim Comparison.noConfusion Comparison.noConfusion
    | some two =>
      dsimp only
      rw [← aNamed, ← bNamed]
      split_ifs with known
      · exact iff_of_true direct fun wrong => known wrong.unstored
      · have unstored := not_not.mp known
        unfold strippedComparison
        cases aOne : isPlusOne implied a || isMinusOne implied a with
        | true =>
          rw [if_pos rfl, adjustedComparison_left_iff sound aOne withoutLeft]
          refine not_congr ⟨fun wrong => ?_, fun wrong => ?_⟩
          · exact ⟨wrong.1.1, wrong.1.2, aNamed ▸ Option.some_ne_none one, unstored,
              wrong.2.1, wrong.2.2⟩
          · exact ⟨⟨wrong.left, wrong.right⟩, wrong.stored, wrong.notLarger⟩
        | false =>
          rw [if_neg Bool.false_ne_true]
          have noMinus := (Bool.or_eq_false_iff.mp aOne).2
          have right : ¬Misjudged implied tables vals a b := by
            intro wrong
            rw [wrong.left] at noMinus
            exact Bool.noConfusion noMinus
          refine iff_of_true ?_ right
          cases bOne : isPlusOne implied b || isMinusOne implied b with
          | true =>
            rw [if_pos rfl]
            exact adjustedComparison_right sound aOne bOne withoutRight
          | false =>
            obtain ⟨aNoPlus, aNoMinus⟩ := Bool.or_eq_false_iff.mp aOne
            obtain ⟨bNoPlus, bNoMinus⟩ := Bool.or_eq_false_iff.mp bOne
            unfold adjustedComparison
            rw [aNoPlus, aNoMinus, bNoPlus, bNoMinus]
            trivial

theorem intersection_unknown_holds_iff :
    (comparisonIntersection op unknown).Holds x y ↔ op.Holds x y := by
  cases op <;> exact Iff.rfl

/-- What is returned is true, unless both sides are an expression less one and the right one is
looked up with the left expression. -/
theorem getComparisonNoExtra_holds_iff (sound : ImpliedTrue implied vals) (filed : tables.Filed)
    (allTrue : tables.AllTrue (nameValue vals)) (aParsed : a.Parsed) (bParsed : b.Parsed) :
    (getComparisonNoExtra implied tables a b).Holds (a.eval vals) (b.eval vals) ↔
      ¬Misjudged implied tables vals (simplifyBinops implied a.stripParens b.stripParens).1
        (simplifyBinops implied a.stripParens b.stripParens).2 := by
  have simplified := simplifyBinops_sameOrder sound aParsed.stripParens bParsed.stripParens
  have difference := simplified.difference
  rw [Chunk.eval_stripParens, Chunk.eval_stripParens] at difference
  unfold getComparisonNoExtra
  rw [intersection_unknown_holds_iff, ← holds_of_difference difference]
  exact simplifiedComparison_holds_iff sound filed allTrue simplified.leftParsed
    simplified.rightParsed

/-! ### Two differences -/

def nameX : Name := [120]
def nameY : Name := [121]

def lessOne (name : Name) : Chunk := .binop (.symbol name) .minus (.value 1)

def impliedNumber : Chunk → Option Int
  | .value number => some number
  | _ => none

def nameYLessOne : Name := [121, 32, 45, 32, 49]

/-- It is stored that `x == y - 1`. -/
def storedEqual : Tables Unit where
  compare := fun link =>
    if link = stateName nameX nameYLessOne then
      some (some ⟨none, nameX, [], equal, none, nameYLessOne, []⟩)
    else none
  links := fun _ => none

def oneTwo (name : Name) : Int := if name = nameX then 1 else 2

theorem lessOne_chunkToVar : (lessOne nameY).chunkToVar = some nameYLessOne := by
  decide

theorem impliedNumber_true : ImpliedTrue impliedNumber oneTwo := by
  intro expr value implied
  unfold impliedNumber at implied
  split at implied
  · exact Option.some.inj implied
  · cases implied

theorem isVarName_nameX : IsVarName nameX := by
  refine ⟨fun byte member => ?_, 120, [], rfl, by unfold IsDigit; decide, by decide⟩
  obtain rfl := List.mem_singleton.mp member
  unfold Plain
  decide

theorem isVarName_nameY : IsVarName nameY := by
  refine ⟨fun byte member => ?_, 121, [], rfl, by unfold IsDigit; decide, by decide⟩
  obtain rfl := List.mem_singleton.mp member
  unfold Plain
  decide

theorem storedEqual_data {link : Name} {data : CompareData Unit}
    (found : storedEqual.data link = some data) :
    link = stateName nameX nameYLessOne ∧
      data = ⟨none, nameX, [], equal, none, nameYLessOne, []⟩ := by
  unfold Tables.data storedEqual at found
  dsimp only at found
  split_ifs at found with own
  · exact ⟨own, (Option.some.inj found).symm⟩
  · cases found

theorem storedEqual_filed : storedEqual.Filed := by
  intro link data found
  obtain ⟨rfl, rfl⟩ := storedEqual_data found
  exact ⟨rfl, ⟨.symbol nameX, isVarName_nameX, rfl⟩,
    ⟨lessOne nameY, ⟨isVarName_nameY, trivial, rfl⟩, lessOne_chunkToVar⟩⟩

theorem storedEqual_allTrue : storedEqual.AllTrue (nameValue oneTwo) := by
  intro link data found
  obtain ⟨-, rfl⟩ := storedEqual_data found
  have left : nameValue oneTwo nameX = 1 :=
    @nameValue_eq oneTwo (.symbol nameX) nameX isVarName_nameX rfl
  have right : nameValue oneTwo nameYLessOne = 1 :=
    @nameValue_eq oneTwo (lessOne nameY) nameYLessOne ⟨isVarName_nameY, trivial, rfl⟩
      lessOne_chunkToVar
  exact left.trans right.symm

theorem getComparisonNoExtra_holds_iff_lessOne :
    (getComparisonNoExtra impliedNumber storedEqual (lessOne nameX) (lessOne nameY)).Holds
        ((lessOne nameX).eval oneTwo) ((lessOne nameY).eval oneTwo) ↔
      ¬Misjudged impliedNumber storedEqual oneTwo
        (simplifyBinops impliedNumber (lessOne nameX).stripParens (lessOne nameY).stripParens).1
        (simplifyBinops impliedNumber (lessOne nameX).stripParens
          (lessOne nameY).stripParens).2 :=
  getComparisonNoExtra_holds_iff impliedNumber_true storedEqual_filed storedEqual_allTrue
    ⟨isVarName_nameX, trivial, rfl⟩ ⟨isVarName_nameY, trivial, rfl⟩

/-- From `x == y - 1` the lookup of `x - 1` and `y - 1` concludes `0 > 1`. -/
theorem getComparisonNoExtra_lessOne_wrong :
    ImpliedTrue impliedNumber oneTwo ∧
      storedEqual.Filed ∧ storedEqual.AllTrue (nameValue oneTwo) ∧
      (lessOne nameX).Parsed ∧ (lessOne nameY).Parsed ∧
      getComparisonNoExtra impliedNumber storedEqual (lessOne nameX) (lessOne nameY) = gt ∧
        ¬gt.Holds ((lessOne nameX).eval oneTwo) ((lessOne nameY).eval oneTwo) :=
  ⟨impliedNumber_true, storedEqual_filed, storedEqual_allTrue, ⟨isVarName_nameX, trivial, rfl⟩,
    ⟨isVarName_nameY, trivial, rfl⟩, by decide, by decide⟩

end Ones

end SmatchFormal.Links
