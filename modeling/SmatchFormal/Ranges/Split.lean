import SmatchFormal.Comparison.Basic
import SmatchFormal.Ranges.RemoveRange

/-!
# Splitting two lists by a comparison

`split_comparison_rl` gives, for each side of a comparison, the values for which
it can be true and those for which it can be false.
-/

namespace SmatchFormal.Ranges

/-! ## Definitions -/

structure SplitRl where
  leftTrue : RangeList
  leftFalse : RangeList
  rightTrue : RangeList
  rightFalse : RangeList
  deriving DecidableEq, Repr

/-- `split_comparison_rl`; `clone_rl` copies a list, and `none` is the fatal branch
inside `rl_intersection`. -/
def splitComparisonRl (leftOrig : RangeList) (op : Comparison) (rightOrig : RangeList) :
    Option SplitRl :=
  let min := svalTypeMin ((rlType leftOrig).getD llongCtype)
  let max := svalTypeMax ((rlType leftOrig).getD llongCtype)
  match op with
  | .lt | .unsignedLt =>
    some {
      leftTrue := removeRange leftOrig (rlMax rightOrig) max
      leftFalse :=
        if !svalIsMin (rlMin rightOrig) then removeRange leftOrig min (subOne (rlMin rightOrig))
        else leftOrig
      rightTrue := removeRange rightOrig min (rlMin leftOrig)
      rightFalse :=
        if !svalIsMax (rlMax leftOrig) then removeRange rightOrig (addOne (rlMax leftOrig)) max
        else rightOrig }
  | .lte | .unsignedLte =>
    let leftTrue :=
      if !svalIsMax (rlMax rightOrig) then removeRange leftOrig (addOne (rlMax rightOrig)) max
      else leftOrig
    let leftFalse := removeRange leftOrig min (rlMin rightOrig)
    let rightTrue :=
      if !svalIsMin (rlMin leftOrig) then removeRange rightOrig min (subOne (rlMin leftOrig))
      else rightOrig
    let rightFalse := removeRange rightOrig (rlMax leftOrig) max
    some {
      leftTrue
      leftFalse :=
        if svalCmp (rlMin leftOrig) (rlMin rightOrig) = 0 then
          removeRange leftFalse (rlMin leftOrig) (rlMin leftOrig)
        else leftFalse
      rightTrue
      rightFalse :=
        if svalCmp (rlMax leftOrig) (rlMax rightOrig) = 0 then
          removeRange rightFalse (rlMax leftOrig) (rlMax leftOrig)
        else rightFalse }
  | .equal =>
    (rlIntersection leftOrig rightOrig).map fun both =>
      { leftTrue := both
        leftFalse :=
          if svalCmp (rlMin rightOrig) (rlMax rightOrig) = 0 then
            removeRange leftOrig (rlMin rightOrig) (rlMin rightOrig)
          else leftOrig
        rightTrue := both
        rightFalse :=
          if svalCmp (rlMin leftOrig) (rlMax leftOrig) = 0 then
            removeRange rightOrig (rlMin leftOrig) (rlMin leftOrig)
          else rightOrig }
  | .gte | .unsignedGte =>
    let leftTrue :=
      if !svalIsMin (rlMin rightOrig) then removeRange leftOrig min (subOne (rlMin rightOrig))
      else leftOrig
    let leftFalse := removeRange leftOrig (rlMax rightOrig) max
    let rightTrue :=
      if !svalIsMax (rlMax leftOrig) then removeRange rightOrig (addOne (rlMax leftOrig)) max
      else rightOrig
    let rightFalse := removeRange rightOrig min (rlMin leftOrig)
    some {
      leftTrue
      leftFalse :=
        if svalCmp (rlMax leftOrig) (rlMax rightOrig) = 0 then
          removeRange leftFalse (rlMax leftOrig) (rlMax leftOrig)
        else leftFalse
      rightTrue
      rightFalse :=
        if svalCmp (rlMin leftOrig) (rlMin rightOrig) = 0 then
          removeRange rightFalse (rlMin leftOrig) (rlMin leftOrig)
        else rightFalse }
  | .gt | .unsignedGt =>
    some {
      leftTrue := removeRange leftOrig min (rlMin rightOrig)
      leftFalse :=
        if !svalIsMax (rlMax rightOrig) then removeRange leftOrig (addOne (rlMax rightOrig)) max
        else leftOrig
      rightTrue := removeRange rightOrig (rlMax leftOrig) max
      rightFalse :=
        if !svalIsMin (rlMin leftOrig) then removeRange rightOrig min (subOne (rlMin leftOrig))
        else rightOrig }
  | .notEqual =>
    (rlIntersection leftOrig rightOrig).map fun both =>
      { leftTrue :=
          if svalCmp (rlMin rightOrig) (rlMax rightOrig) = 0 then
            removeRange leftOrig (rlMin rightOrig) (rlMin rightOrig)
          else leftOrig
        leftFalse := both
        rightTrue :=
          if svalCmp (rlMin leftOrig) (rlMax leftOrig) = 0 then
            removeRange rightOrig (rlMin leftOrig) (rlMin leftOrig)
          else rightOrig
        rightFalse := both }
  -- `sm_perror(" unhandled comparison %d", op)` after the clones.
  | .unknown | .impossible => some ⟨leftOrig, leftOrig, rightOrig, rightOrig⟩

section Ends

variable {type : Ctype} {rl : RangeList}

theorem rlMin_ofType (canonical : Canonical type rl) (nonempty : rl ≠ []) :
    (rlMin rl).OfType type := by
  cases rl with
  | nil => exact absurd rfl nonempty
  | cons drange rl => exact canonical.head.1

theorem rlMin_mem (canonical : Canonical type rl) (nonempty : rl ≠ []) :
    (rlMin rl).val ∈ rlSet rl := by
  cases rl with
  | nil => exact absurd rfl nonempty
  | cons drange rl => exact .inl ⟨Int.le_refl _, canonical.head.2.2⟩

theorem rlMin_le (canonical : Canonical type rl) {x : Int} (member : x ∈ rlSet rl) :
    (rlMin rl).val ≤ x := by
  cases rl with
  | nil => exact absurd member (mem_rlSet_nil x)
  | cons drange rl =>
    have order := canonical.head.2.2
    rcases member with inside | later
    · exact inside.1
    · have gap := canonical.gap_of_mem later
      change drange.min.val ≤ x
      omega

theorem rlMax_cons (drange : DataRange) (rl : RangeList) (nonempty : rl ≠ []) :
    rlMax (drange :: rl) = rlMax rl := by
  unfold rlMax
  rw [List.getLast?_cons_of_ne_nil nonempty]

theorem rlMax_ofType (canonical : Canonical type rl) (nonempty : rl ≠ []) :
    (rlMax rl).OfType type := by
  induction rl with
  | nil => exact absurd rfl nonempty
  | cons drange rl ih =>
    by_cases last : rl = []
    · rw [last]
      exact canonical.head.2.1
    · rw [rlMax_cons drange rl last]
      exact ih canonical.tail last

theorem rlMax_mem (canonical : Canonical type rl) (nonempty : rl ≠ []) :
    (rlMax rl).val ∈ rlSet rl := by
  induction rl with
  | nil => exact absurd rfl nonempty
  | cons drange rl ih =>
    by_cases last : rl = []
    · rw [last]
      exact .inl ⟨canonical.head.2.2, Int.le_refl _⟩
    · rw [rlMax_cons drange rl last]
      exact .inr (ih canonical.tail last)

theorem le_rlMax (canonical : Canonical type rl) {x : Int} (member : x ∈ rlSet rl) :
    x ≤ (rlMax rl).val := by
  induction rl with
  | nil => exact absurd member (mem_rlSet_nil x)
  | cons drange rl ih =>
    by_cases last : rl = []
    · subst last
      rcases member with inside | later
      · exact inside.2
      · exact absurd later (mem_rlSet_nil x)
    · rw [rlMax_cons drange rl last]
      rcases (mem_rlSet_cons x drange rl).mp member with inside | later
      · have gap := canonical.gap_of_mem (rlMax_mem canonical.tail last)
        omega
      · exact ih canonical.tail later

end Ends

/-! ## Keeping the values that pass a test -/

/-- `list` is canonical and has the values of `orig` that pass the test. -/
structure Kept (type : Ctype) (orig list : RangeList) (test : Int → Prop) : Prop where
  canonical : Canonical type list
  mem_iff : ∀ x, x ∈ rlSet list ↔ x ∈ rlSet orig ∧ test x

section Kept

variable {type : Ctype} {orig list : RangeList} {min max sval : Sval} {test : Int → Prop}

theorem Kept.congr {other : Int → Prop} (kept : Kept type orig list test)
    (same : ∀ x ∈ rlSet orig, (test x ↔ other x)) : Kept type orig list other :=
  ⟨kept.canonical, fun x => (kept.mem_iff x).trans (and_congr_right (same x))⟩

theorem kept_removeRange (low : min.OfType type) (high : max.OfType type)
    (order : min.val ≤ max.val) (canonical : Canonical type orig) :
    Kept type orig (removeRange orig min max) fun x => ¬ (min.val ≤ x ∧ x ≤ max.val) := by
  refine ⟨removeRange_canonical low high order canonical, fun x => ?_⟩
  rw [removeRange_rlSet low high order canonical]
  exact Iff.rfl

/-- `remove_range` casts the ends of the range to the type of the list, and swaps them when
they are the wrong way round. -/
theorem removeRange_kept {list : RangeList} (canonical : Canonical type list) (min max : Sval) :
    Kept type list (removeRange list min max) fun x =>
      ¬ ((svalCast type min).val ⊓ (svalCast type max).val ≤ x ∧
        x ≤ (svalCast type min).val ⊔ (svalCast type max).val) := by
  have low := svalCast_ofType type min
  have high := svalCast_ofType type max
  by_cases null : list = []
  · rw [null]
    exact ⟨.nil type, fun x => (and_iff_left_of_imp fun impossible =>
      absurd impossible (mem_rlSet_nil x)).symm⟩
  · unfold removeRange
    rw [rlType_of_canonical canonical null]
    dsimp only
    rw [svalCmp_ofType low high]
    split_ifs with reversed
    · have order : (svalCast type max).val ≤ (svalCast type min).val :=
        Int.le_of_lt (by simpa using reversed)
      obtain ⟨result, members⟩ := removeRangeLoop_spec high low order (.nil type) canonical
      refine ⟨result, fun x => ?_⟩
      rw [members x, or_iff_right (mem_rlSet_nil x), inf_eq_right.mpr order, sup_eq_left.mpr order]
    · have order : (svalCast type min).val ≤ (svalCast type max).val := by simpa using reversed
      obtain ⟨result, members⟩ := removeRangeLoop_spec low high order (.nil type) canonical
      refine ⟨result, fun x => ?_⟩
      rw [members x, or_iff_right (mem_rlSet_nil x), inf_eq_left.mpr order, sup_eq_right.mpr order]

section

variable (canonical : Canonical type orig) (typed : sval.OfType type)
include canonical typed

theorem kept_below :
    Kept type orig (removeRange orig sval (svalTypeMax type)) fun x => x < sval.val := by
  refine (kept_removeRange typed (svalTypeMax_ofType type) ?_ canonical).congr ?_
  · rw [svalTypeMax_val]
    exact typed.2.2
  · intro x member
    have bound := (canonical.mem_type member).2
    rw [svalTypeMax_val]
    omega

theorem kept_above :
    Kept type orig (removeRange orig (svalTypeMin type) sval) fun x => sval.val < x := by
  refine (kept_removeRange (svalTypeMin_ofType type) typed ?_ canonical).congr ?_
  · rw [svalTypeMin_val]
    exact typed.2.1
  · intro x member
    have bound := (canonical.mem_type member).1
    rw [svalTypeMin_val]
    omega

/-- Removing everything above a value; nothing is above the maximum of the type. -/
theorem kept_upTo :
    Kept type orig
      (if !svalIsMax sval then removeRange orig (addOne sval) (svalTypeMax type) else orig)
      fun x => x ≤ sval.val := by
  have last := svalIsMax_iff typed
  cases found : svalIsMax sval with
  | true =>
    refine ⟨canonical, fun x => (and_iff_left_of_imp ?_).symm⟩
    intro member
    have bound := (canonical.mem_type member).2
    rw [last.mp found]
    exact bound
  | false =>
    have below : sval.val < type.hi := by
      have bound := typed.2.2
      have other : sval.val ≠ type.hi := fun same => by
        rw [last.mpr same] at found
        cases found
      omega
    refine (kept_below canonical (addOne_ofType typed below)).congr ?_
    intro x _
    rw [addOne_val typed below]
    omega

/-- Removing everything below a value; nothing is below the minimum of the type. -/
theorem kept_from :
    Kept type orig
      (if !svalIsMin sval then removeRange orig (svalTypeMin type) (subOne sval) else orig)
      fun x => sval.val ≤ x := by
  have first := svalIsMin_iff typed
  cases found : svalIsMin sval with
  | true =>
    refine ⟨canonical, fun x => (and_iff_left_of_imp ?_).symm⟩
    intro member
    have bound := (canonical.mem_type member).1
    rw [first.mp found]
    exact bound
  | false =>
    have above : type.lo < sval.val := by
      have bound := typed.2.1
      have other : sval.val ≠ type.lo := fun same => by
        rw [first.mpr same] at found
        cases found
      omega
    refine (kept_above canonical (subOne_ofType typed above)).congr ?_
    intro x _
    rw [subOne_val typed above]
    omega

theorem kept_except :
    Kept type orig (removeRange orig sval sval) fun x => x ≠ sval.val := by
  refine (kept_removeRange typed typed (Int.le_refl _) canonical).congr ?_
  intro x _
  omega

end

/-- Removing one more end of a list, which has gone already. -/
theorem kept_again {limit : Sval} (kept : Kept type orig list test) (typed : sval.OfType type)
    (other : limit.OfType type) (gone : sval.val = limit.val → ¬ test sval.val) :
    Kept type orig (if svalCmp sval limit = 0 then removeRange list sval sval else list) test := by
  rw [svalCmp_ofType typed other]
  simp only [intCmp_eq_zero]
  split_ifs with same
  · have removed := kept_except kept.canonical typed
    refine ⟨removed.canonical, fun x => ?_⟩
    rw [removed.mem_iff, kept.mem_iff]
    constructor
    · exact fun both => both.1
    · intro both
      refine ⟨both, ?_⟩
      rintro rfl
      exact gone same both.2
  · exact kept

end Kept

/-! ## What the four lists hold -/

/-- The test a value passes on the side of a comparison where the other operand
comes from `other`. -/
def Survives (op : Comparison) (other : RangeList) (x : Int) : Prop :=
  match op with
  | .lt | .unsignedLt => x < (rlMax other).val
  | .lte | .unsignedLte => x ≤ (rlMax other).val
  | .equal => x ∈ rlSet other
  | .notEqual => (rlMin other).val = (rlMax other).val → x ≠ (rlMin other).val
  | .gte | .unsignedGte => (rlMin other).val ≤ x
  | .gt | .unsignedGt => (rlMin other).val < x
  | .unknown | .impossible => True

section Split

variable {type : Ctype} {left right other : RangeList} {op : Comparison}

/-- A value for which the comparison holds with some other value survives. -/
theorem survives_of_holds (canonical : Canonical type other) {x y : Int} (member : y ∈ rlSet other)
    (holds : op.Holds x y) : Survives op other x := by
  have low := rlMin_le canonical member
  have high := le_rlMax canonical member
  cases op with
  | lt | unsignedLt => exact Int.lt_of_lt_of_le holds high
  | lte | unsignedLte => exact Int.le_trans holds high
  | equal =>
    cases holds
    exact member
  | notEqual =>
    rintro single rfl
    exact holds (by omega)
  | gte | unsignedGte => exact Int.le_trans low holds
  | gt | unsignedGt => exact Int.lt_of_le_of_lt low holds
  | unknown | impossible => trivial

theorem survives_single (canonical : Canonical type other) (operator : op.IsOperator) {x y : Int}
    (single : rlSet other = {y}) : Survives op other x ↔ op.Holds x y := by
  have member : y ∈ rlSet other := single ▸ rfl
  have nonempty : other ≠ [] := nonempty_of_mem member
  have low : (rlMin other).val = y := by
    have inside := rlMin_mem canonical nonempty
    rw [single] at inside
    exact inside
  have high : (rlMax other).val = y := by
    have inside := rlMax_mem canonical nonempty
    rw [single] at inside
    exact inside
  cases op with
  | lt | unsignedLt | lte | unsignedLte =>
    unfold Survives
    rw [high]
    exact Iff.rfl
  | equal =>
    unfold Survives
    rw [single]
    exact Iff.rfl
  | notEqual =>
    unfold Survives
    rw [low, high]
    exact ⟨fun test => test rfl, fun test _ => test⟩
  | gte | unsignedGte | gt | unsignedGt =>
    unfold Survives
    rw [low]
    exact Iff.rfl
  | unknown => exact absurd rfl operator.1
  | impossible => exact absurd rfl operator.2

/-- The test that `==` makes on one side when the other is a single value. -/
theorem kept_notEqual (canonical : Canonical type left) (others : Canonical type other)
    (nonempty : other ≠ []) :
    Kept type left
      (if svalCmp (rlMin other) (rlMax other) = 0 then
        removeRange left (rlMin other) (rlMin other) else left)
      (Survives .notEqual other) := by
  have low := rlMin_ofType others nonempty
  have high := rlMax_ofType others nonempty
  rw [svalCmp_ofType low high]
  simp only [intCmp_eq_zero]
  split_ifs with single
  · exact (kept_except canonical low).congr fun x _ => ⟨fun test _ => test, fun test => test single⟩
  · exact ⟨canonical, fun x => (and_iff_left fun found => absurd found single).symm⟩

/-- The four lists of `split_comparison_rl`: each side keeps the values that pass
its test, the false lists those of the negated comparison. -/
theorem splitComparisonRl_kept (operator : op.IsOperator) (lefts : Canonical type left)
    (rights : Canonical type right) (leftNonempty : left ≠ []) (rightNonempty : right ≠ []) :
    ∃ split, splitComparisonRl left op right = some split ∧
      Kept type left split.leftTrue (Survives op right) ∧
      Kept type left split.leftFalse (Survives (negateComparison op) right) ∧
      Kept type right split.rightTrue (Survives (flipComparison op) left) ∧
      Kept type right split.rightFalse (Survives (flipComparison (negateComparison op)) left) := by
  have leftMin := rlMin_ofType lefts leftNonempty
  have leftMax := rlMax_ofType lefts leftNonempty
  have rightMin := rlMin_ofType rights rightNonempty
  have rightMax := rlMax_ofType rights rightNonempty
  obtain ⟨both, found, canonical, values⟩ := rlIntersection_spec lefts rights
  have keptLeft : Kept type left both (Survives .equal right) :=
    ⟨canonical, fun x => by rw [values]; exact Iff.rfl⟩
  have keptRight : Kept type right both (Survives .equal left) :=
    ⟨canonical, fun x => by rw [values]; exact and_comm⟩
  unfold splitComparisonRl
  rw [rlType_of_canonical lefts leftNonempty]
  simp only [Option.getD_some]
  cases op with
  | lt | unsignedLt =>
    exact ⟨_, rfl, kept_below lefts rightMax, kept_from lefts rightMin,
      kept_above rights leftMin, kept_upTo rights leftMax⟩
  | lte | unsignedLte =>
    refine ⟨_, rfl, kept_upTo lefts rightMax, ?_, kept_from rights leftMin, ?_⟩
    · exact kept_again (kept_above lefts rightMin) leftMin rightMin
        fun same => Int.not_lt.mpr (Int.le_of_eq same)
    · exact kept_again (kept_below rights leftMax) leftMax rightMax fun _ => Int.lt_irrefl _
  | equal =>
    rw [found]
    exact ⟨_, rfl, keptLeft, kept_notEqual lefts rights rightNonempty, keptRight,
      kept_notEqual rights lefts leftNonempty⟩
  | notEqual =>
    rw [found]
    exact ⟨_, rfl, kept_notEqual lefts rights rightNonempty, keptLeft,
      kept_notEqual rights lefts leftNonempty, keptRight⟩
  | gte | unsignedGte =>
    refine ⟨_, rfl, kept_from lefts rightMin, ?_, kept_upTo rights leftMax, ?_⟩
    · exact kept_again (kept_below lefts rightMax) leftMax rightMax
        fun same => Int.not_lt.mpr (Int.le_of_eq same.symm)
    · exact kept_again (kept_above rights leftMin) leftMin rightMin fun _ => Int.lt_irrefl _
  | gt | unsignedGt =>
    exact ⟨_, rfl, kept_above lefts rightMin, kept_upTo lefts rightMax,
      kept_below rights leftMax, kept_from rights leftMin⟩
  | unknown => exact absurd rfl operator.1
  | impossible => exact absurd rfl operator.2

/-- Against a single value the two lists of a side are a partition of it. -/
theorem Kept.partition {trues falses : RangeList} {y : Int} (operator : op.IsOperator)
    (others : Canonical type other) (single : rlSet other = {y})
    (first : Kept type left trues (Survives op other))
    (second : Kept type left falses (Survives (negateComparison op) other)) :
    rlSet trues ∩ rlSet falses = ∅ ∧ rlSet trues ∪ rlSet falses = rlSet left := by
  have test : ∀ x, Survives (negateComparison op) other x ↔ ¬ Survives op other x := by
    intro x
    rw [survives_single others operator single,
      survives_single others (negateComparison_isOperator operator) single,
      negateComparison_holds operator]
  constructor
  · ext x
    rw [Set.mem_inter_iff, first.mem_iff, second.mem_iff, test x]
    exact ⟨fun found => absurd found.1.2 found.2.2, fun impossible => absurd impossible id⟩
  · ext x
    rw [Set.mem_union, first.mem_iff, second.mem_iff, test x, ← and_or_left]
    exact and_iff_left (Classical.em _)

/-- The four lists cover every outcome, and against a single value they are exact. -/
theorem splitComparisonRl_sound (operator : op.IsOperator) (lefts : Canonical type left)
    (rights : Canonical type right) (leftNonempty : left ≠ []) (rightNonempty : right ≠ []) :
    ∃ split, splitComparisonRl left op right = some split ∧
      (∀ l ∈ rlSet left, ∀ r ∈ rlSet right,
        (op.Holds l r → l ∈ rlSet split.leftTrue ∧ r ∈ rlSet split.rightTrue) ∧
        (¬ op.Holds l r → l ∈ rlSet split.leftFalse ∧ r ∈ rlSet split.rightFalse)) ∧
      (∀ value, rlSet right = {value} →
        rlSet split.leftTrue ∩ rlSet split.leftFalse = ∅ ∧
        rlSet split.leftTrue ∪ rlSet split.leftFalse = rlSet left) ∧
      (∀ value, rlSet left = {value} →
        rlSet split.rightTrue ∩ rlSet split.rightFalse = ∅ ∧
        rlSet split.rightTrue ∪ rlSet split.rightFalse = rlSet right) := by
  obtain ⟨split, found, leftTrue, leftFalse, rightTrue, rightFalse⟩ :=
    splitComparisonRl_kept operator lefts rights leftNonempty rightNonempty
  refine ⟨split, found, ?_, ?_, ?_⟩
  · intro l inLeft r inRight
    constructor
    · intro holds
      exact ⟨(leftTrue.mem_iff l).mpr ⟨inLeft, survives_of_holds rights inRight holds⟩,
        (rightTrue.mem_iff r).mpr ⟨inRight,
          survives_of_holds lefts inLeft ((flipComparison_holds operator).mpr holds)⟩⟩
    · intro fails
      have holds := (negateComparison_holds operator).mpr fails
      exact ⟨(leftFalse.mem_iff l).mpr ⟨inLeft, survives_of_holds rights inRight holds⟩,
        (rightFalse.mem_iff r).mpr ⟨inRight, survives_of_holds lefts inLeft
          ((flipComparison_holds (negateComparison_isOperator operator)).mpr holds)⟩⟩
  · intro value single
    exact leftTrue.partition operator rights single leftFalse
  · intro value single
    rw [← negateComparison_flip operator] at rightFalse
    exact rightTrue.partition (flipComparison_isOperator operator) lefts single rightFalse

end Split

/-- Lists whose ends are the limits of the type. -/
theorem splitComparisonRl_sound_limits :
    ∃ split, splitComparisonRl [⟨intCtype.ofInt (-2 ^ 31), intCtype.ofInt 7⟩] .lt
        [⟨intCtype.ofInt 7, intCtype.ofInt (2 ^ 31 - 1)⟩] = some split ∧
      7 ∈ rlSet split.leftTrue ∧ 8 ∈ rlSet split.rightTrue ∧
      7 ∈ rlSet split.leftFalse ∧ 7 ∈ rlSet split.rightFalse := by
  obtain ⟨split, found, sound, -⟩ := @splitComparisonRl_sound intCtype
    [⟨intCtype.ofInt (-2 ^ 31), intCtype.ofInt 7⟩]
    [⟨intCtype.ofInt 7, intCtype.ofInt (2 ^ 31 - 1)⟩] .lt
    (by decide) (by decide) (by decide) (by decide) (by decide)
  have holds := (sound 7 (by decide) 8 (by decide)).1 (by decide)
  have fails := (sound 7 (by decide) 7 (by decide)).2 (by decide)
  exact ⟨split, found, holds.1, holds.2, fails.1, fails.2⟩

end SmatchFormal.Ranges
