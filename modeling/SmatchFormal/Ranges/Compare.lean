import SmatchFormal.Ranges.Split

/-!
# Comparing two lists of any types

`possibly_true_rl`, `possibly_false_rl` and `filter_by_comparison` cast both lists
to the type of `get_binop_type` and compare there.  The first two look at pairs
of ranges, the third removes a range and casts the result back.
-/

namespace SmatchFormal.Ranges

/-! ## Definitions -/

def trueComparisonRange (left : DataRange) (comparison : Comparison) (right : DataRange) : Bool :=
  match comparison with
  | .lt | .unsignedLt => decide (svalCmp left.min right.max < 0)
  | .lte | .unsignedLte => decide (svalCmp left.min right.max ≤ 0)
  | .equal =>
    if svalCmp left.max right.min < 0 then false
    else if svalCmp left.min right.max > 0 then false
    else true
  | .gte | .unsignedGte => decide (svalCmp left.max right.min ≥ 0)
  | .gt | .unsignedGt => decide (svalCmp left.max right.min > 0)
  | .notEqual =>
    if svalCmp left.min left.max ≠ 0 then true
    else if svalCmp right.min right.max ≠ 0 then true
    else if svalCmp left.min right.min ≠ 0 then true
    else false
  -- `sm_perror("unhandled comparison %d", comparison)`.
  | .unknown | .impossible => false

def falseComparisonRangeSval (left : DataRange) (comparison : Comparison) (right : DataRange) :
    Bool :=
  match comparison with
  | .lt | .unsignedLt => decide (svalCmp left.max right.min ≥ 0)
  | .lte | .unsignedLte => decide (svalCmp left.max right.min > 0)
  | .equal =>
    if svalCmp left.min left.max ≠ 0 then true
    else if svalCmp right.min right.max ≠ 0 then true
    else if svalCmp left.min right.min ≠ 0 then true
    else false
  | .gte | .unsignedGte => decide (svalCmp left.min right.max < 0)
  | .gt | .unsignedGt => decide (svalCmp left.min right.max ≤ 0)
  | .notEqual =>
    if svalCmp left.max right.min < 0 then false
    else if svalCmp left.min right.max > 0 then false
    else true
  | .unknown | .impossible => false

def possiblyTrueRl (leftRanges : RangeList) (comparison : Comparison) (rightRanges : RangeList) :
    Bool :=
  if leftRanges = [] ∨ rightRanges = [] ∨ comparison = .unknown then true
  else if comparison = .impossible then false
  else
    let type := getBinopType leftRanges rightRanges
    (castRl (some type) leftRanges).any fun leftTmp =>
      (castRl (some type) rightRanges).any fun rightTmp =>
        trueComparisonRange leftTmp comparison rightTmp

def possiblyFalseRl (leftRanges : RangeList) (comparison : Comparison) (rightRanges : RangeList) :
    Bool :=
  if leftRanges = [] ∨ rightRanges = [] ∨ comparison = .unknown then true
  else if comparison = .impossible then false
  else
    let type := getBinopType leftRanges rightRanges
    (castRl (some type) leftRanges).any fun leftTmp =>
      (castRl (some type) rightRanges).any fun rightTmp =>
        falseComparisonRangeSval leftTmp comparison rightTmp

/-- The switch of `filter_by_comparison`: `ret_rl`, which starts as `*rl`. -/
def filterByComparisonCut (rl leftOrig rightOrig : RangeList) (min max : Sval) :
    Comparison → Option RangeList
  | .lt | .unsignedLt => some (removeRange leftOrig (rlMax rightOrig) max)
  | .lte | .unsignedLte =>
    some (if !svalIsMax (rlMax rightOrig) then removeRange leftOrig (addOne (rlMax rightOrig)) max
      else rl)
  | .equal => rlIntersection leftOrig rightOrig
  | .gte | .unsignedGte =>
    some (if !svalIsMin (rlMin rightOrig) then removeRange leftOrig min (subOne (rlMin rightOrig))
      else rl)
  | .gt | .unsignedGt => some (removeRange leftOrig min (rlMin rightOrig))
  | .notEqual =>
    some (if svalCmp (rlMin rightOrig) (rlMax rightOrig) = 0 then
        removeRange leftOrig (rlMin rightOrig) (rlMin rightOrig)
      else rl)
  | .unknown | .impossible => some rl

/-- `filter_by_comparison`: the new `*rl`; `none` is the fatal branch inside
`rl_intersection`. -/
def filterByComparison (rl : RangeList) (comparison : Comparison) (right : RangeList) :
    Option RangeList :=
  if comparison = .unknown ∨ comparison = .impossible then some rl
  else
    let castType := getBinopType rl right
    let leftOrig := castRl (some castType) rl
    let rightOrig := castRl (some castType) right
    (filterByComparisonCut rl leftOrig rightOrig (svalTypeMin castType) (svalTypeMax castType)
      comparison).map (castRl (rlType rl))

namespace IntKind

def promote : IntKind → IntKind
  | bool | s8 | u8 | s16 | u16 => s32
  | kind => kind

def usual (one two : IntKind) : IntKind :=
  let one := one.promote
  let two := two.promote
  if one.unsigned = two.unsigned then
    if one.bits < two.bits then two else one
  else
    let (unsigned, signed) := if one.unsigned then (one, two) else (two, one)
    -- A wider signed type holds all values of the unsigned one.
    if signed.bits ≤ unsigned.bits then unsigned else signed

theorem usual_wide (one two : IntKind) :
    one.bits ≤ (one.usual two).bits ∧ two.bits ≤ (one.usual two).bits ∧ one.usual two ≠ bool := by
  cases one <;> cases two <;> decide

end IntKind

/-- The C comparison of a value of type `one` with a value of type `two`. -/
def CCompares (one two : Ctype) (op : Comparison) (l r : Int) : Prop :=
  op.Holds ((one.kind.usual two.kind).wrap l) ((one.kind.usual two.kind).wrap r)

instance (one two : Ctype) (op : Comparison) (l r : Int) : Decidable (CCompares one two op l r) :=
  inferInstanceAs (Decidable (Comparison.Holds _ _ _))

section Compare

variable {source target : Ctype} {left right : RangeList} {op : Comparison}

theorem getBinopType_kind (lefts : Canonical source left) (rights : Canonical target right)
    (leftNonempty : left ≠ []) (rightNonempty : right ≠ []) :
    (getBinopType left right).kind = source.kind.usual target.kind := by
  unfold getBinopType
  rw [rlType_of_canonical lefts leftNonempty, rlType_of_canonical rights rightNonempty]
  simp only [Option.getD_some, typePositiveBitsOpt]
  obtain ⟨_, one⟩ := source
  obtain ⟨_, two⟩ := target
  cases one <;> cases two <;> rfl

/-! ## `possibly_true_rl` and `possibly_false_rl` -/

def PairHolds (op : Comparison) (one two : DataRange) : Prop :=
  ∃ x y, (one.min.val ≤ x ∧ x ≤ one.max.val) ∧ (two.min.val ≤ y ∧ y ≤ two.max.val) ∧ op.Holds x y

theorem pairHolds_equal {one two : DataRange} (orderOne : one.min.val ≤ one.max.val)
    (orderTwo : two.min.val ≤ two.max.val) :
    PairHolds .equal one two ↔ two.min.val ≤ one.max.val ∧ one.min.val ≤ two.max.val := by
  constructor
  · rintro ⟨x, y, first, second, same⟩
    cases same
    omega
  · intro overlap
    by_cases below : one.min.val ≤ two.min.val
    · exact ⟨two.min.val, two.min.val, by omega, by omega, rfl⟩
    · exact ⟨one.min.val, one.min.val, by omega, by omega, rfl⟩

theorem pairHolds_notEqual {one two : DataRange} (orderOne : one.min.val ≤ one.max.val)
    (orderTwo : two.min.val ≤ two.max.val) :
    PairHolds .notEqual one two ↔
      one.min.val ≠ one.max.val ∨ two.min.val ≠ two.max.val ∨ one.min.val ≠ two.min.val := by
  constructor
  · rintro ⟨x, y, first, second, other⟩
    by_contra all
    have same : x = y := by omega
    exact other same
  · intro some
    by_cases starts : one.min.val = two.min.val
    · by_cases single : one.min.val = one.max.val
      · exact ⟨one.min.val, two.max.val, by omega, by omega, by change _ ≠ _; omega⟩
      · exact ⟨one.max.val, two.min.val, by omega, by omega, by change _ ≠ _; omega⟩
    · exact ⟨one.min.val, two.min.val, by omega, by omega, starts⟩

/-- The test on the ends of two ranges decides whether some pair satisfies the comparison. -/
theorem trueComparisonRange_iff {type : Ctype} {one two : DataRange} (operator : op.IsOperator)
    (lowOne : one.min.OfType type) (highOne : one.max.OfType type) (lowTwo : two.min.OfType type)
    (highTwo : two.max.OfType type) (orderOne : one.min.val ≤ one.max.val)
    (orderTwo : two.min.val ≤ two.max.val) :
    trueComparisonRange one op two = true ↔ PairHolds op one two := by
  have compare := fun {first second : Sval} => @svalCmp_ofType type first second
  cases op with
  | lt | unsignedLt =>
    simp only [trueComparisonRange, compare lowOne highTwo, intCmp_lt_zero, decide_eq_true_eq]
    constructor
    · intro less
      exact ⟨_, _, ⟨Int.le_refl _, orderOne⟩, ⟨orderTwo, Int.le_refl _⟩, less⟩
    · rintro ⟨x, y, first, second, less⟩
      exact Int.lt_of_le_of_lt first.1 (Int.lt_of_lt_of_le less second.2)
  | lte | unsignedLte =>
    simp only [trueComparisonRange, compare lowOne highTwo, intCmp_le_zero, decide_eq_true_eq]
    constructor
    · intro less
      exact ⟨_, _, ⟨Int.le_refl _, orderOne⟩, ⟨orderTwo, Int.le_refl _⟩, less⟩
    · rintro ⟨x, y, first, second, less⟩
      exact Int.le_trans first.1 (Int.le_trans less second.2)
  | equal =>
    rw [pairHolds_equal orderOne orderTwo]
    simp only [trueComparisonRange, compare highOne lowTwo, compare lowOne highTwo,
      intCmp_lt_zero, intCmp_gt_zero]
    split_ifs <;> simp <;> omega
  | notEqual =>
    rw [pairHolds_notEqual orderOne orderTwo]
    simp only [trueComparisonRange, compare lowOne highOne, compare lowTwo highTwo,
      compare lowOne lowTwo, ne_eq, intCmp_eq_zero]
    split_ifs <;> simp <;> omega
  | gte | unsignedGte =>
    simp only [trueComparisonRange, compare highOne lowTwo, intCmp_ge_zero, decide_eq_true_eq]
    constructor
    · intro less
      exact ⟨_, _, ⟨orderOne, Int.le_refl _⟩, ⟨Int.le_refl _, orderTwo⟩, less⟩
    · rintro ⟨x, y, first, second, less⟩
      exact Int.le_trans second.1 (Int.le_trans less first.2)
  | gt | unsignedGt =>
    simp only [trueComparisonRange, compare highOne lowTwo, intCmp_gt_zero, decide_eq_true_eq]
    constructor
    · intro less
      exact ⟨_, _, ⟨orderOne, Int.le_refl _⟩, ⟨Int.le_refl _, orderTwo⟩, less⟩
    · rintro ⟨x, y, first, second, less⟩
      exact Int.lt_of_le_of_lt second.1 (Int.lt_of_lt_of_le less first.2)
  | unknown => exact absurd rfl operator.1
  | impossible => exact absurd rfl operator.2

/-- A pair of ranges can be false exactly when it can be true for the negated comparison. -/
theorem falseComparisonRangeSval_eq (one two : DataRange) (operator : op.IsOperator) :
    falseComparisonRangeSval one op two = trueComparisonRange one (negateComparison op) two := by
  cases op with
  | unknown => exact absurd rfl operator.1
  | impossible => exact absurd rfl operator.2
  | lt | unsignedLt | lte | unsignedLte | equal | notEqual | gte | unsignedGte | gt | unsignedGt =>
    rfl

/-- The loops over pairs of ranges decide whether some pair of values satisfies
the comparison. -/
theorem anyPair_iff {type : Ctype} {ones twos : RangeList} (operator : op.IsOperator)
    (first : Canonical type ones) (second : Canonical type twos) :
    (ones.any fun one => twos.any fun two => trueComparisonRange one op two) = true ↔
      ∃ x ∈ rlSet ones, ∃ y ∈ rlSet twos, op.Holds x y := by
  simp only [List.any_eq_true]
  constructor
  · rintro ⟨one, inOnes, two, inTwos, test⟩
    obtain ⟨lowOne, highOne⟩ := first.typed one inOnes
    obtain ⟨lowTwo, highTwo⟩ := second.typed two inTwos
    obtain ⟨x, y, inOne, inTwo, holds⟩ := (trueComparisonRange_iff operator lowOne highOne lowTwo
      highTwo (first.ordered inOnes) (second.ordered inTwos)).mp test
    exact ⟨x, (mem_rlSet_iff x ones).mpr ⟨one, inOnes, inOne⟩, y,
      (mem_rlSet_iff y twos).mpr ⟨two, inTwos, inTwo⟩, holds⟩
  · rintro ⟨x, inSetOne, y, inSetTwo, holds⟩
    obtain ⟨one, inOnes, inOne⟩ := (mem_rlSet_iff x ones).mp inSetOne
    obtain ⟨two, inTwos, inTwo⟩ := (mem_rlSet_iff y twos).mp inSetTwo
    obtain ⟨lowOne, highOne⟩ := first.typed one inOnes
    obtain ⟨lowTwo, highTwo⟩ := second.typed two inTwos
    exact ⟨one, inOnes, two, inTwos, (trueComparisonRange_iff operator lowOne highOne lowTwo
      highTwo (first.ordered inOnes) (second.ordered inTwos)).mpr ⟨x, y, inOne, inTwo, holds⟩⟩

/-- Both lists in the common type: canonical lists of the converted values. -/
theorem castRl_binop (lefts : Canonical source left) (rights : Canonical target right)
    (leftNonempty : left ≠ []) (rightNonempty : right ≠ []) :
    let type := getBinopType left right
    Canonical type (castRl (some type) left) ∧ Canonical type (castRl (some type) right) ∧
      rlSet (castRl (some type) left) = (source.kind.usual target.kind).wrap '' rlSet left ∧
      rlSet (castRl (some type) right) = (source.kind.usual target.kind).wrap '' rlSet right := by
  have kind := getBinopType_kind lefts rights leftNonempty rightNonempty
  obtain ⟨wideOne, wideTwo, -⟩ := source.kind.usual_wide target.kind
  rw [← kind] at wideOne wideTwo ⊢
  exact ⟨(castRl_spec lefts).1, (castRl_spec rights).1, castRl_wide lefts wideOne,
    castRl_wide rights wideTwo⟩

section

variable (operator : op.IsOperator) (lefts : Canonical source left)
  (rights : Canonical target right) (leftNonempty : left ≠ []) (rightNonempty : right ≠ [])
include operator lefts rights leftNonempty rightNonempty

theorem possiblyTrueRl_iff :
    possiblyTrueRl left op right = true ↔
      ∃ l ∈ rlSet left, ∃ r ∈ rlSet right, CCompares source target op l r := by
  obtain ⟨first, second, valuesOne, valuesTwo⟩ :=
    castRl_binop lefts rights leftNonempty rightNonempty
  unfold possiblyTrueRl
  rw [if_neg (by simp [leftNonempty, rightNonempty, operator.1]), if_neg operator.2]
  rw [anyPair_iff operator first second, valuesOne, valuesTwo]
  simp only [Set.exists_mem_image]
  exact Iff.rfl

theorem possiblyFalseRl_iff :
    possiblyFalseRl left op right = true ↔
      ∃ l ∈ rlSet left, ∃ r ∈ rlSet right, ¬ CCompares source target op l r := by
  obtain ⟨first, second, valuesOne, valuesTwo⟩ :=
    castRl_binop lefts rights leftNonempty rightNonempty
  unfold possiblyFalseRl
  rw [if_neg (by simp [leftNonempty, rightNonempty, operator.1]), if_neg operator.2]
  simp only [falseComparisonRangeSval_eq _ _ operator]
  rw [anyPair_iff (negateComparison_isOperator operator) first second, valuesOne, valuesTwo]
  simp only [Set.exists_mem_image, negateComparison_holds operator]
  exact Iff.rfl

end

section Back

variable {common : Ctype} {low high : Int}

/-- A range of converted values of a narrower type fits it, or lies in one half. -/
theorem fits_or_sameHalf (narrow : typeBits source < typeBits common) (order : low ≤ high)
    (origins : ∀ y, low ≤ y → y ≤ high → ∃ x, source.lo ≤ x ∧ x ≤ source.hi ∧ common.wrap x = y) :
    source.lo ≤ low ∧ high ≤ source.hi ∨ source.kind.SameHalf low high := by
  obtain ⟨-, double, -, -⟩ := IntKind.narrow_bounds narrow
  have size := source.hi_eq
  have bounds := source.kind.bounds
  have places : ∀ y, low ≤ y → y ≤ high →
      source.lo ≤ y ∧ y ≤ source.hi ∨
        source.lo ≤ y - 2 ^ typeBits common ∧ y < 2 ^ typeBits common := by
    intro y above below
    obtain ⟨x, first, last, rfl⟩ := origins y above below
    rcases IntKind.wrap_narrow narrow first last with same | ⟨negative, moved⟩
    · exact .inl (by rw [Ctype.wrap, same]; exact ⟨first, last⟩)
    · right
      rw [Ctype.wrap, moved]
      unfold typeBits
      omega
  have lower := places low (Int.le_refl _) order
  have upper := places high order (Int.le_refl _)
  unfold typeBits Ctype.lo Ctype.hi at *
  by_cases fits : low ≤ source.kind.hi
  · left
    -- The value after the greatest one of the narrower type is no converted value.
    by_cases above : source.kind.hi < high
    · have next := places (source.kind.hi + 1) (by omega) (by omega)
      omega
    · omega
  · right
    have negative : source.kind.lo < 0 := by omega
    have signed : source.kind.unsigned = false := by
      cases sign : source.kind.unsigned with
      | false => rfl
      | true =>
        rw [IntKind.lo_of_unsigned sign] at negative
        omega
    have half : source.kind.SameHalf (low - 2 ^ common.kind.bits) (high - 2 ^ common.kind.bits) :=
      .of_mem signed (by omega) (by omega) (by omega) (by omega)
    have shifted := half.shift (Nat.le_of_lt (Nat.lt_of_le_of_lt (Nat.sub_le _ _) narrow))
    rwa [Int.sub_add_cancel, Int.sub_add_cancel] at shifted

theorem castValues_back (first : common.lo ≤ low)
    (order : low ≤ high) (last : high ≤ common.hi)
    (origins : ∀ y, low ≤ y → y ≤ high → ∃ x, source.lo ≤ x ∧ x ≤ source.hi ∧ common.wrap x = y) :
    castValues common source low high = source.wrap '' Set.Icc low high := by
  by_cases same : typeBits common ≤ typeBits source
  · exact castValues_wide same first order last
  have narrow : typeBits source < typeBits common := Nat.lt_of_not_le same
  unfold castValues
  by_cases truth : source = boolCtype
  · rw [if_pos truth]
  rw [if_neg truth, castEnds]
  rcases fits_or_sameHalf narrow order origins with fits | half
  · rw [if_pos (.inr (.inl fits))]
    exact endsSet_of_block (.of_mem fits.1 order fits.2) order
  · rw [if_pos (.inr (.inr ⟨narrow, half.nicely⟩))]
    exact endsSet_of_block half.block order

/-- Casting converted values of a type back to it gives the values. -/
theorem castRl_back {ret : RangeList} (wide : typeBits source ≤ typeBits common)
    (truth : common.kind ≠ .bool) (canonical : Canonical common ret) {values : Set Int}
    (typed : ∀ x ∈ values, source.lo ≤ x ∧ x ≤ source.hi)
    (origins : rlSet ret = common.wrap '' values) :
    Canonical source (castRl (some source) ret) ∧ rlSet (castRl (some source) ret) = values := by
  obtain ⟨result, members⟩ := @castRl_spec common source ret canonical
  refine ⟨result, ?_⟩
  have back : ∀ x ∈ values, source.wrap (common.wrap x) = x :=
    fun x inside => IntKind.wrap_wrap wide truth (typed x inside).1 (typed x inside).2
  have piece : ∀ drange ∈ ret, castValues common source drange.min.val drange.max.val =
      source.wrap '' Set.Icc drange.min.val drange.max.val := by
    intro drange member
    obtain ⟨first, order, last⟩ := ends_of_canonical canonical member
    refine castValues_back first order last ?_
    intro y above below
    have inside : y ∈ rlSet ret := (mem_rlSet_iff y ret).mpr ⟨drange, member, above, below⟩
    rw [origins] at inside
    obtain ⟨x, origin, found⟩ := inside
    exact ⟨x, (typed x origin).1, (typed x origin).2, found⟩
  ext x
  rw [members x]
  constructor
  · rintro ⟨drange, member, inside⟩
    rw [piece drange member] at inside
    obtain ⟨y, between, rfl⟩ := inside
    have found : y ∈ rlSet ret := (mem_rlSet_iff y ret).mpr ⟨drange, member, between⟩
    rw [origins] at found
    obtain ⟨origin, valued, rfl⟩ := found
    rwa [back origin valued]
  · intro inside
    have found : common.wrap x ∈ rlSet ret := by
      rw [origins]
      exact ⟨x, inside, rfl⟩
    obtain ⟨drange, member, between⟩ := (mem_rlSet_iff _ ret).mp found
    refine ⟨drange, member, ?_⟩
    rw [piece drange member]
    exact ⟨common.wrap x, between, back x inside⟩

end Back

/-! ## `filter_by_comparison` -/

/-- A test that decides between a cut and the list as it is. -/
theorem kept_or_whole {type : Ctype} {orig cut : RangeList} {test : Int → Prop} {decided : Prop}
    [Decidable decided] (kept : Kept type orig (if decided then cut else orig) test) :
    Kept type orig (if decided then cut else left) test ∨
      (if decided then cut else left) = left ∧ ∀ x ∈ rlSet orig, test x := by
  by_cases found : decided
  · rw [if_pos found] at kept ⊢
    exact .inl kept
  · rw [if_neg found] at kept ⊢
    exact .inr ⟨rfl, fun x member => ((kept.mem_iff x).mp member).2⟩

/-- The cut keeps what survives, or leaves the list as it is when everything does. -/
theorem filterByComparisonCut_spec {type : Ctype} {leftOrig rightOrig : RangeList}
    (operator : op.IsOperator) (lefts : Canonical type leftOrig) (rights : Canonical type rightOrig)
    (nonempty : rightOrig ≠ []) :
    ∃ ret, filterByComparisonCut left leftOrig rightOrig (svalTypeMin type) (svalTypeMax type) op =
        some ret ∧
      (Kept type leftOrig ret (Survives op rightOrig) ∨
        ret = left ∧ ∀ x ∈ rlSet leftOrig, Survives op rightOrig x) := by
  have low := rlMin_ofType rights nonempty
  have high := rlMax_ofType rights nonempty
  cases op with
  | lt | unsignedLt => exact ⟨_, rfl, .inl (kept_below lefts high)⟩
  | lte | unsignedLte => exact ⟨_, rfl, kept_or_whole (kept_upTo lefts high)⟩
  | equal =>
    obtain ⟨both, found, canonical, values⟩ := rlIntersection_spec lefts rights
    exact ⟨both, found, .inl ⟨canonical, fun x => by rw [values]; exact Iff.rfl⟩⟩
  | notEqual => exact ⟨_, rfl, kept_or_whole (kept_notEqual lefts rights nonempty)⟩
  | gte | unsignedGte => exact ⟨_, rfl, kept_or_whole (kept_from lefts low)⟩
  | gt | unsignedGt => exact ⟨_, rfl, .inl (kept_above lefts low)⟩
  | unknown => exact absurd rfl operator.1
  | impossible => exact absurd rfl operator.2

theorem filterByComparison_spec (operator : op.IsOperator) (lefts : Canonical source left)
    (rights : Canonical target right) (leftNonempty : left ≠ []) (rightNonempty : right ≠ []) :
    ∃ result, filterByComparison left op right = some result ∧ Canonical source result ∧
      ∀ x, x ∈ rlSet result ↔ x ∈ rlSet left ∧
        Survives op (castRl (some (getBinopType left right)) right)
          ((source.kind.usual target.kind).wrap x) := by
  obtain ⟨first, second, valuesOne, valuesTwo⟩ :=
    castRl_binop lefts rights leftNonempty rightNonempty
  have kind := getBinopType_kind lefts rights leftNonempty rightNonempty
  obtain ⟨wide, -, truth⟩ := source.kind.usual_wide target.kind
  obtain ⟨r, inRight⟩ := exists_mem_of_ne_nil rights rightNonempty
  have converted : (source.kind.usual target.kind).wrap r ∈
      rlSet (castRl (some (getBinopType left right)) right) := by
    rw [valuesTwo]
    exact ⟨r, inRight, rfl⟩
  have filled := nonempty_of_mem converted
  obtain ⟨ret, cut, kept⟩ := @filterByComparisonCut_spec left op _ _ _ operator first second filled
  refine ⟨castRl (some source) ret, ?_, ?_⟩
  · unfold filterByComparison
    rw [if_neg (fun either => either.elim operator.1 operator.2)]
    simp only
    rw [cut, rlType_of_canonical lefts leftNonempty]
    rfl
  · rw [← kind] at valuesOne wide truth ⊢
    rcases kept with kept | ⟨rfl, everything⟩
    · have origins : rlSet ret = (getBinopType left right).wrap '' {x | x ∈ rlSet left ∧
          Survives op (castRl (some (getBinopType left right)) right)
            ((getBinopType left right).wrap x)} := by
        ext y
        rw [kept.mem_iff y, valuesOne]
        constructor
        · rintro ⟨⟨x, member, rfl⟩, survives⟩
          exact ⟨x, ⟨member, survives⟩, rfl⟩
        · rintro ⟨x, ⟨member, survives⟩, rfl⟩
          exact ⟨⟨x, member, rfl⟩, survives⟩
      obtain ⟨result, values⟩ := castRl_back wide truth kept.canonical
        (fun x inside => lefts.mem_type inside.1) origins
      refine ⟨result, fun x => ?_⟩
      rw [values]
      exact Iff.rfl
    · rw [castRl_self lefts]
      refine ⟨lefts, fun x => (and_iff_left_of_imp ?_).symm⟩
      intro member
      apply everything
      rw [valuesOne]
      exact ⟨x, member, rfl⟩

/-- The three functions agree with the C comparison of the values. -/
theorem comparison_correct (operator : op.IsOperator) (lefts : Canonical source left)
    (rights : Canonical target right) (leftNonempty : left ≠ []) (rightNonempty : right ≠ []) :
    (possiblyTrueRl left op right = true ↔
      ∃ l ∈ rlSet left, ∃ r ∈ rlSet right, CCompares source target op l r) ∧
    (possiblyFalseRl left op right = true ↔
      ∃ l ∈ rlSet left, ∃ r ∈ rlSet right, ¬ CCompares source target op l r) ∧
    ∃ result, filterByComparison left op right = some result ∧
      (∀ l ∈ rlSet left, (∃ r ∈ rlSet right, CCompares source target op l r) → l ∈ rlSet result) ∧
      rlSet result ⊆ rlSet left := by
  obtain ⟨-, second, -, valuesTwo⟩ := castRl_binop lefts rights leftNonempty rightNonempty
  obtain ⟨result, found, -, members⟩ :=
    filterByComparison_spec operator lefts rights leftNonempty rightNonempty
  refine ⟨possiblyTrueRl_iff operator lefts rights leftNonempty rightNonempty,
    possiblyFalseRl_iff operator lefts rights leftNonempty rightNonempty, result, found, ?_, ?_⟩
  · rintro l inLeft ⟨r, inRight, compares⟩
    refine (members l).mpr ⟨inLeft, survives_of_holds second ?_ compares⟩
    rw [valuesTwo]
    exact ⟨r, inRight, rfl⟩
  · intro x member
    exact ((members x).mp member).1

end Compare

/-- A negative `int` against an `unsigned int`. -/
theorem comparison_correct_signs :
    possiblyTrueRl [⟨intCtype.ofInt (-5), intCtype.ofInt (-1)⟩] .gt
      [⟨uintCtype.ofInt 7, uintCtype.ofInt 9⟩] = true :=
  (@comparison_correct intCtype uintCtype _ _ .gt (by decide) (by decide) (by decide) (by decide)
    (by decide)).1.mpr ⟨-1, by decide, 7, by decide, by decide⟩

end SmatchFormal.Ranges
