import SmatchFormal.Lib.Corners
import SmatchFormal.RangeMath.BinopValues

/-!
# The four quadrants

Products, quotients, remainders and differences are computed for the negative and the other
values of the two lists apart.  The bounds of a quadrant are taken at two of its corners,
which the helper of the operator picks by the signs.
-/

namespace SmatchFormal.RangeMath

open SmatchFormal.Ranges SmatchFormal.Extra SmatchFormal.Lib.Corners

/-! ## The code -/

inductive PosNeg
  | posPos
  | posNeg
  | negPos
  | negNeg
  deriving DecidableEq, Repr

structure Corners where
  lowLeft : Sval
  lowRight : Sval
  highLeft : Sval
  highRight : Sval

/-- The calls of a helper for the four quadrants and the unions of what they return. -/
def unionQuadrants (helper : PosNeg → RangeList → RangeList → RangeList)
    (leftNeg leftPos rightNeg rightPos : RangeList) : RangeList :=
  let posPos := helper .posPos leftPos rightPos
  let posNeg := helper .posNeg leftPos rightNeg
  let negPos := helper .negPos leftNeg rightPos
  let negNeg := helper .negNeg leftNeg rightNeg
  rlUnion (rlUnion (rlUnion negNeg negPos) posNeg) posPos

/-- The end of the helpers for products and differences: the range between the corners. -/
def cornerRange (op : Binop) (corners : Corners) (left : RangeList) : RangeList :=
  if svalBinopOverflows corners.lowLeft op corners.lowRight ||
      svalBinopOverflows corners.highLeft op corners.highRight then
    allocWholeRl (rlType left)
  else
    allocRl (svalBinop corners.lowLeft op corners.lowRight)
      (svalBinop corners.highLeft op corners.highRight)

def cutZero (quadrant : PosNeg) (right : RangeList) : RangeList :=
  match quadrant with
  | .posPos | .negPos => rlFilter right (allocRl (intCtype.ofInt 0) (intCtype.ofInt 0))
  | .posNeg | .negNeg => right

def hasNegativeInformation : RangeList → Bool
  | [] => false
  | drange :: _ =>
    if !svalIsNegative drange.min then false
    else if !svalIsMin drange.min then true
    else if !svalIsNegative drange.max then false
    else if drange.max.raw = -1 then false
    else true

namespace PosNeg

variable {α : Type}

def ofLeft (neg pos : α) : PosNeg → α
  | posPos | posNeg => pos
  | negPos | negNeg => neg

def ofRight (neg pos : α) : PosNeg → α
  | posPos | negPos => pos
  | posNeg | negNeg => neg

def Left (quadrant : PosNeg) (x : Int) : Prop := quadrant.ofLeft (x < 0) (0 ≤ x)

def Right (quadrant : PosNeg) (x : Int) : Prop := quadrant.ofRight (x < 0) (0 ≤ x)

theorem exists_quadrant (l r : Int) : ∃ quadrant : PosNeg, quadrant.Left l ∧ quadrant.Right r := by
  rcases lt_or_ge l 0 with negLeft | nonnegLeft
  · rcases lt_or_ge r 0 with negRight | nonnegRight
    · exact ⟨negNeg, negLeft, negRight⟩
    · exact ⟨negPos, negLeft, nonnegRight⟩
  · rcases lt_or_ge r 0 with negRight | nonnegRight
    · exact ⟨posNeg, nonnegLeft, negRight⟩
    · exact ⟨posPos, nonnegLeft, nonnegRight⟩

theorem left_of_mem {quadrant : PosNeg} {a b x : Int} (low : quadrant.Left a)
    (high : quadrant.Left b) (inside : x ∈ Set.Icc a b) : quadrant.Left x := by
  have nonneg : 0 ≤ a → 0 ≤ x := fun start => Int.le_trans start inside.1
  have negative : b < 0 → x < 0 := fun last => Int.lt_of_le_of_lt inside.2 last
  cases quadrant with
  | posPos => exact nonneg low
  | posNeg => exact nonneg low
  | negPos => exact negative high
  | negNeg => exact negative high

theorem right_of_mem {quadrant : PosNeg} {a b x : Int} (low : quadrant.Right a)
    (high : quadrant.Right b) (inside : x ∈ Set.Icc a b) : quadrant.Right x := by
  have nonneg : 0 ≤ a → 0 ≤ x := fun start => Int.le_trans start inside.1
  have negative : b < 0 → x < 0 := fun last => Int.lt_of_le_of_lt inside.2 last
  cases quadrant with
  | posPos => exact nonneg low
  | posNeg => exact negative high
  | negPos => exact nonneg low
  | negNeg => exact negative high

end PosNeg

section Quadrants

variable {type : Ctype} {kind : IntKind} {left right : RangeList}
  {leftNeg leftPos rightNeg rightPos : RangeList}
  {helper : PosNeg → RangeList → RangeList → RangeList}

theorem left_kept (canonical : Canonical type left) (quadrant : PosNeg) :
    Kept type left (quadrant.ofLeft (getNegRl left) (getPosRl left)) quadrant.Left := by
  cases quadrant with
  | posPos => exact getPosRl_kept canonical
  | posNeg => exact getPosRl_kept canonical
  | negPos => exact getNegRl_kept canonical
  | negNeg => exact getNegRl_kept canonical

theorem right_kept (canonical : Canonical type right) (quadrant : PosNeg) :
    Kept type right (quadrant.ofRight (getNegRl right) (getPosRl right)) quadrant.Right := by
  cases quadrant with
  | posPos => exact getPosRl_kept canonical
  | posNeg => exact getNegRl_kept canonical
  | negPos => exact getPosRl_kept canonical
  | negNeg => exact getNegRl_kept canonical

theorem unionQuadrants_ofKind
    (parts : ∀ quadrant : PosNeg, OfKind kind
      (helper quadrant (quadrant.ofLeft leftNeg leftPos) (quadrant.ofRight rightNeg rightPos))) :
    OfKind kind (unionQuadrants helper leftNeg leftPos rightNeg rightPos) ∧
      ∀ x, x ∈ rlSet (unionQuadrants helper leftNeg leftPos rightNeg rightPos) ↔
        ∃ quadrant : PosNeg, x ∈ rlSet (helper quadrant (quadrant.ofLeft leftNeg leftPos)
          (quadrant.ofRight rightNeg rightPos)) := by
  obtain ⟨first, inFirst⟩ := rlUnion_ofKind (parts .negNeg) (parts .negPos)
  obtain ⟨second, inSecond⟩ := rlUnion_ofKind first (parts .posNeg)
  obtain ⟨third, inThird⟩ := rlUnion_ofKind second (parts .posPos)
  refine ⟨third, fun x => (inThird x).trans ?_⟩
  rw [inSecond x, inFirst x]
  constructor
  · rintro (((found | found) | found) | found)
    · exact ⟨.negNeg, found⟩
    · exact ⟨.negPos, found⟩
    · exact ⟨.posNeg, found⟩
    · exact ⟨.posPos, found⟩
  · rintro ⟨quadrant, found⟩
    cases quadrant with
    | posPos => exact .inr found
    | posNeg => exact .inl (.inr found)
    | negPos => exact .inl (.inl (.inr found))
    | negNeg => exact .inl (.inl (.inl found))

theorem nonneg_parts (canonical : Canonical type left) (nonneg : ∀ x ∈ rlSet left, 0 ≤ x) :
    getNegRl left = [] ∧ Canonical type (getPosRl left) ∧ rlSet (getPosRl left) = rlSet left := by
  have negative := getNegRl_kept canonical
  have positive := getPosRl_kept canonical
  refine ⟨?_, positive.canonical, Set.ext fun x => ?_⟩
  · by_contra filled
    obtain ⟨x, member⟩ := exists_mem_of_ne_nil negative.canonical filled
    obtain ⟨inLeft, below⟩ := (negative.mem_iff x).mp member
    exact absurd (nonneg x inLeft) (not_le.mpr below)
  · exact (positive.mem_iff x).trans (and_iff_left_of_imp fun member => nonneg x member)

/-- Of lists without negative parts only the first quadrant is left. -/
theorem unionQuadrants_nonneg
    (null : ∀ quadrant left right, left = [] ∨ right = [] → helper quadrant left right = [])
    (part : OfKind kind (helper .posPos leftPos rightPos)) :
    OfKind kind (unionQuadrants helper [] leftPos [] rightPos) ∧
      ∀ x, x ∈ rlSet (unionQuadrants helper [] leftPos [] rightPos) ↔
        x ∈ rlSet (helper .posPos leftPos rightPos) := by
  have empty : ∀ quadrant : PosNeg, quadrant ≠ .posPos →
      helper quadrant (quadrant.ofLeft [] leftPos) (quadrant.ofRight [] rightPos) = [] := by
    intro quadrant other
    cases quadrant with
    | posPos => exact absurd rfl other
    | posNeg => exact null _ _ _ (.inr rfl)
    | negPos => exact null _ _ _ (.inl rfl)
    | negNeg => exact null _ _ _ (.inl rfl)
  have parts : ∀ quadrant : PosNeg, OfKind kind
      (helper quadrant (quadrant.ofLeft [] leftPos) (quadrant.ofRight [] rightPos)) := by
    intro quadrant
    by_cases other : quadrant = .posPos
    · rw [other]
      exact part
    · rw [empty quadrant other]
      exact OfKind.nil kind
  obtain ⟨union, members⟩ := unionQuadrants_ofKind parts
  refine ⟨union, fun x => (members x).trans ⟨?_, fun inside => ⟨.posPos, inside⟩⟩⟩
  rintro ⟨quadrant, inside⟩
  by_cases other : quadrant = .posPos
  · rw [other] at inside
    exact inside
  · rw [empty quadrant other] at inside
    exact absurd inside (mem_rlSet_nil x)

theorem rlFilter_zero {list : RangeList} (canonical : Canonical type list) {sval : Sval}
    (zero : sval.val = 0) (source : sval.OfType sval.type) :
    Kept type list (rlFilter list (allocRl sval sval)) (· ≠ 0) := by
  obtain ⟨-, bottom, top, -⟩ := type.kind.bounds
  have cast : (svalCast type sval).val = 0 := by
    rw [svalCast_val_of_mem, zero]
    · rw [zero]
      exact bottom
    · rw [zero]
      exact Int.le_trans (by decide) top
  rw [allocRl_eq source source (Int.le_refl _)]
  have kept := removeRange_kept canonical sval sval
  rw [cast, inf_idem, sup_idem] at kept
  refine ⟨kept.canonical, fun x => (kept.mem_iff x).trans (and_congr_right fun _ => ?_)⟩
  omega

theorem cutZero_kept {quadrant : PosNeg} (canonical : Canonical type right)
    (signs : ∀ r ∈ rlSet right, quadrant.Right r) :
    Kept type right (cutZero quadrant right) (· ≠ 0) := by
  have positive := rlFilter_zero canonical (zero_val intCtype) (zero_ofType intCtype)
  have negative : (∀ r ∈ rlSet right, r < 0) → Kept type right right (· ≠ 0) :=
    fun below => ⟨canonical, fun x => ⟨fun member => ⟨member, Int.ne_of_lt (below x member)⟩,
      fun found => found.1⟩⟩
  cases quadrant with
  | posPos => exact positive
  | posNeg => exact negative signs
  | negPos => exact positive
  | negNeg => exact negative signs

end Quadrants

namespace Corners

def ofDirections (first second : Direction) (left right : RangeList) : Corners :=
  ⟨first.start (rlMin left) (rlMax left), second.start (rlMin right) (rlMax right),
    first.stop (rlMin left) (rlMax left), second.stop (rlMin right) (rlMax right)⟩

structure Typed (type : Ctype) (corners : Corners) : Prop where
  lowLeft : corners.lowLeft.OfType type
  lowRight : corners.lowRight.OfType type
  highLeft : corners.highLeft.OfType type
  highRight : corners.highRight.OfType type

structure Within (type : Ctype) (left right : RangeList) (corners : Corners) : Prop where
  lowLeft : corners.lowLeft.OfType type ∧ corners.lowLeft.val ∈ rlSet left
  lowRight : corners.lowRight.OfType type ∧ corners.lowRight.val ∈ rlSet right
  highLeft : corners.highLeft.OfType type ∧ corners.highLeft.val ∈ rlSet left
  highRight : corners.highRight.OfType type ∧ corners.highRight.val ∈ rlSet right

variable {type : Ctype} {left right : RangeList} {first second : Direction}

theorem Within.typed {corners : Corners} (within : corners.Within type left right) :
    corners.Typed type :=
  ⟨within.lowLeft.1, within.lowRight.1, within.highLeft.1, within.highRight.1⟩

theorem ofDirections_within (one : Canonical type left) (two : Canonical type right)
    (someLeft : left ≠ []) (someRight : right ≠ []) :
    (ofDirections first second left right).Within type left right := by
  have ends : ∀ (direction : Direction) (rl : RangeList), Canonical type rl → rl ≠ [] →
      ((direction.start (rlMin rl) (rlMax rl)).OfType type ∧
        (direction.start (rlMin rl) (rlMax rl)).val ∈ rlSet rl) ∧
      (direction.stop (rlMin rl) (rlMax rl)).OfType type ∧
        (direction.stop (rlMin rl) (rlMax rl)).val ∈ rlSet rl := by
    intro direction rl canonical some
    have low := And.intro (rlMin_ofType canonical some) (rlMin_mem canonical some)
    have high := And.intro (rlMax_ofType canonical some) (rlMax_mem canonical some)
    cases direction with
    | up => exact ⟨low, high⟩
    | down => exact ⟨high, low⟩
  obtain ⟨startLeft, stopLeft⟩ := ends first left one someLeft
  obtain ⟨startRight, stopRight⟩ := ends second right two someRight
  exact ⟨startLeft, startRight, stopLeft, stopRight⟩

/-- The values of a function with the directions lie between those at the corners. -/
theorem ofDirections_bounds (one : Canonical type left) (two : Canonical type right)
    {f : Int → Int → Int}
    (along : ∀ y ∈ Set.Icc (rlMin right).val (rlMax right).val,
      first.Along (fun x => f x y) (Set.Icc (rlMin left).val (rlMax left).val))
    (across : ∀ x ∈ Set.Icc (rlMin left).val (rlMax left).val,
      second.Along (f x) (Set.Icc (rlMin right).val (rlMax right).val))
    {l r : Int} (inLeft : l ∈ rlSet left) (inRight : r ∈ rlSet right) :
    let corners := ofDirections first second left right
    f corners.lowLeft.val corners.lowRight.val ≤ f l r ∧
      f l r ≤ f corners.highLeft.val corners.highRight.val := by
  have start : ∀ (direction : Direction) (a b : Sval),
      (direction.start a b).val = direction.start a.val b.val := by
    intro direction a b
    cases direction <;> rfl
  have stop : ∀ (direction : Direction) (a b : Sval),
      (direction.stop a b).val = direction.stop a.val b.val := by
    intro direction a b
    cases direction <;> rfl
  simp only [ofDirections, start, stop]
  exact Direction.mem_corners along across ⟨rlMin_le one inLeft, le_rlMax one inLeft⟩
    ⟨rlMin_le two inRight, le_rlMax two inRight⟩

end Corners

section Range

variable {type : Ctype} {left : RangeList} {corners : Corners} {op : Binop}
  {exact : Int → Int → Int}

section

variable (found : overflowOp op = some exact) (rank : IntRank type) (typed : corners.Typed type)
include found rank typed

/-- The range between two corners when they fit in the type. -/
theorem cornerRange_fits
    (low : type.lo ≤ exact corners.lowLeft.val corners.lowRight.val ∧
      exact corners.lowLeft.val corners.lowRight.val ≤ type.hi)
    (high : type.lo ≤ exact corners.highLeft.val corners.highRight.val ∧
      exact corners.highLeft.val corners.highRight.val ≤ type.hi) :
    OfKind type.kind (cornerRange op corners left) ∧
      ∀ x, x ∈ rlSet (cornerRange op corners left) ↔
        x ∈ endsSet type (exact corners.lowLeft.val corners.lowRight.val)
          (exact corners.highLeft.val corners.highRight.val) := by
  have noLow : svalBinopOverflows corners.lowLeft op corners.lowRight = false := by
    rw [Bool.eq_false_iff, Ne, svalBinopOverflows_iff found rank typed.lowLeft typed.lowRight,
      not_not]
    exact low
  have noHigh : svalBinopOverflows corners.highLeft op corners.highRight = false := by
    rw [Bool.eq_false_iff, Ne, svalBinopOverflows_iff found rank typed.highLeft typed.highRight,
      not_not]
    exact high
  obtain ⟨lowTyped, lowVal⟩ := svalBinop_exact found rank typed.lowLeft typed.lowRight noLow
  obtain ⟨highTyped, highVal⟩ := svalBinop_exact found rank typed.highLeft typed.highRight noHigh
  obtain ⟨result, members⟩ := allocRl_spec lowTyped highTyped
  unfold cornerRange
  rw [noLow, noHigh]
  refine ⟨⟨_, promoted_kind rank, result⟩, fun x => (members x).trans ?_⟩
  rw [lowVal, highVal]
  unfold endsSet
  rw [promoted_lo rank, promoted_hi rank]

theorem cornerRange_whole (canonical : Canonical type left) (some : left ≠ [])
    (overflow : ¬ ((type.lo ≤ exact corners.lowLeft.val corners.lowRight.val ∧
        exact corners.lowLeft.val corners.lowRight.val ≤ type.hi) ∧
      type.lo ≤ exact corners.highLeft.val corners.highRight.val ∧
      exact corners.highLeft.val corners.highRight.val ≤ type.hi)) :
    OfKind type.kind (cornerRange op corners left) ∧
      ∀ x, x ∈ rlSet (cornerRange op corners left) ↔ type.lo ≤ x ∧ x ≤ type.hi := by
  obtain ⟨whole, members⟩ := allocWholeRl_spec type
  have test : (svalBinopOverflows corners.lowLeft op corners.lowRight ||
      svalBinopOverflows corners.highLeft op corners.highRight) = true := by
    rw [Bool.or_eq_true, svalBinopOverflows_iff found rank typed.lowLeft typed.lowRight,
      svalBinopOverflows_iff found rank typed.highLeft typed.highRight, ← not_and_or]
    exact overflow
  unfold cornerRange
  rw [if_pos test, rlType_of_canonical canonical some]
  exact ⟨⟨type, rfl, whole⟩, members⟩

/-- In both cases it holds every number between the corners, modulo the width. -/
theorem cornerRange_spec (canonical : Canonical type left) (some : left ≠ []) :
    OfKind type.kind (cornerRange op corners left) ∧
      ∀ x, exact corners.lowLeft.val corners.lowRight.val ≤ x →
        x ≤ exact corners.highLeft.val corners.highRight.val →
        type.wrap x ∈ rlSet (cornerRange op corners left) := by
  by_cases fits : (type.lo ≤ exact corners.lowLeft.val corners.lowRight.val ∧
        exact corners.lowLeft.val corners.lowRight.val ≤ type.hi) ∧
      type.lo ≤ exact corners.highLeft.val corners.highRight.val ∧
        exact corners.highLeft.val corners.highRight.val ≤ type.hi
  · obtain ⟨kind, members⟩ := @cornerRange_fits type left corners op exact found rank typed fits.1
      fits.2
    refine ⟨kind, fun x above below => ?_⟩
    have same : type.wrap x = x :=
      IntKind.wrap_of_mem (Int.le_trans fits.1.1 above) (Int.le_trans below fits.2.2)
    rw [members, endsSet_of_le (Int.le_trans above below), same]
    exact ⟨above, below⟩
  · obtain ⟨kind, members⟩ := cornerRange_whole found rank typed canonical some fits
    exact ⟨kind, fun x _ _ => (members _).mpr (type.kind.wrap_bounds x)⟩

end

end Range

end SmatchFormal.RangeMath
