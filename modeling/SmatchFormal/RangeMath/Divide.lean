import SmatchFormal.Lib.Quotients
import SmatchFormal.RangeMath.Quadrants

/-!
# Quotients of range lists

`rl_handle_divide` divides the quadrants.  A quotient rounded towards zero goes up or down
with the dividend by the sign of the divisor, and with the divisor by the sign of the
dividend, so that it lies between the quotients at two corners.  Two calls fall out of this:
a whole list on the right, where the left list is returned as it is, and the least value of
a 64 bit type over minus one, for which `sval_binop` has a value of its own.
-/

namespace SmatchFormal.RangeMath

open SmatchFormal.Ranges SmatchFormal.Extra SmatchFormal.Lib.Corners SmatchFormal.Lib.Quotients

/-! ## The code -/

def divideCorners (quadrant : PosNeg) (left right : RangeList) : Corners :=
  match quadrant with
  | .posPos => ⟨rlMin left, rlMax right, rlMax left, rlMin right⟩
  | .posNeg => ⟨rlMax left, rlMax right, rlMin left, rlMin right⟩
  | .negPos => ⟨rlMin left, rlMin right, rlMax left, rlMax right⟩
  | .negNeg => ⟨rlMax left, rlMin right, rlMin left, rlMax right⟩

def divideRlHelper (quadrant : PosNeg) (left right : RangeList) : RangeList :=
  let right := cutZero quadrant right
  if left = [] ∨ right = [] then []
  else
    let corners := divideCorners quadrant left right
    allocRl (svalBinop corners.lowLeft .div corners.lowRight)
      (svalBinop corners.highLeft .div corners.highRight)

def rlHandleDivide (left right : RangeList) : RangeList :=
  match knownZero left with
  | some sval => allocRl sval sval
  | none =>
    if isWholeRl left then []
    else if isWholeRl right then left
    else unionQuadrants divideRlHelper (getNegRl left) (getPosRl left) (getNegRl right)
      (getPosRl right)

/-! ## When every quotient is kept -/

def QuotientsAround (dividends divisors : Set Int) (x : Int) : Prop :=
  (∃ l ∈ dividends, ∃ r ∈ divisors, l.tdiv r ≤ x) ∧ ∃ l ∈ dividends, ∃ r ∈ divisors, x ≤ l.tdiv r

def overflowQuotient : Int := 12345678

/-- A list divided by a whole unsigned list has its own quotients.  Where the quotient that
overflows in 64 bits is one of the quotients of negative values and its value is not below all
the others, these are at most this value or between two quotients of the other values. -/
def DivideSound (type : Ctype) (left right : RangeList) : Prop :=
  (typeUnsigned type = true → isWholeRl right = true →
    ∀ l ∈ rlSet left, ∀ r ∈ rlSet right, r ≠ 0 → l.tdiv r ∈ rlSet left) ∧
  (type.kind = .s64 → isWholeRl left = false → type.lo ∈ rlSet left → -1 ∈ rlSet right →
    (∃ l ∈ rlSet left, ∃ r ∈ rlSet right, l < 0 ∧ r < 0 ∧ l.tdiv r ≤ overflowQuotient) →
    ∀ l ∈ rlSet left, ∀ r ∈ rlSet right, l < 0 → r < 0 → l.tdiv r ≤ type.hi →
      l.tdiv r ≤ overflowQuotient ∨
        QuotientsAround {l | l ∈ rlSet left ∧ 0 ≤ l} {r | r ∈ rlSet right ∧ 0 < r} (l.tdiv r))

section Values

variable {type : Ctype} {one two : Sval}

theorem quotient_ofType (first : one.OfType type) (second : two.OfType type) :
    (svalBinop one .div two).OfType (getPromotedType type type) := by
  have typed := svalBinop_ofType one .div two
  rwa [first.1, second.1] at typed

/-- A signed type is symmetric but for its least value, an unsigned one starts at zero. -/
theorem lo_cases (type : Ctype) :
    typeUnsigned type = true ∧ type.lo = 0 ∨
      typeUnsigned type = false ∧ type.lo = -(type.hi + 1) := by
  have kinds : ∀ kind : IntKind, kind.unsigned = true ∧ kind.lo = 0 ∨
      kind.unsigned = false ∧ kind.lo = -(kind.hi + 1) := by
    intro kind
    cases kind <;> decide
  exact kinds type.kind

theorem quotient_fits (first : one.OfType type) (second : two.OfType type)
    (other : ¬ (one.val = type.lo ∧ two.val = -1)) :
    type.lo ≤ one.val.tdiv two.val ∧ one.val.tdiv two.val ≤ type.hi := by
  obtain ⟨-, low, high⟩ := first
  rcases lo_cases type with ⟨-, bottom⟩ | ⟨-, bottom⟩
  · have divisor : 0 ≤ two.val := bottom ▸ second.2.1
    rw [bottom] at low ⊢
    exact ⟨Int.tdiv_nonneg low divisor, Int.le_trans (Int.tdiv_le_self _ low) high⟩
  · exact tdiv_fits bottom low high other

/-- The value of a signed type of 64 or 32 bits is the 64 bit number itself. -/
theorem value_of_signed (first : one.OfType type) (sign : typeUnsigned type = false) :
    one.value = one.val := by
  unfold Sval.val
  rw [first.1, if_neg (Bool.not_eq_true _ |>.mpr sign)]

theorem svalBinop_div_val (rank : IntRank type) (first : one.OfType type)
    (second : two.OfType type) (nonzero : two.val ≠ 0)
    (other : ¬ (one.val = type.lo ∧ two.val = -1)) :
    (svalBinop one .div two).val = one.val.tdiv two.val := by
  obtain ⟨low, high⟩ := quotient_fits first second other
  have keep : (getPromotedType type type).wrap (one.val.tdiv two.val) = one.val.tdiv two.val := by
    refine IntKind.wrap_of_mem ?_ ?_
    · rw [promoted_kind rank]
      exact low
    · rw [promoted_kind rank]
      exact high
  have promoted := promoted_unsigned rank
  rcases lo_cases type with ⟨sign, bottom⟩ | ⟨sign, bottom⟩
  · have dividend : 0 ≤ one.val := bottom ▸ first.2.1
    have divisor : 0 ≤ two.val := bottom ▸ second.2.1
    rw [svalBinop_div_unsigned (by rw [first.1, second.1, promoted, sign]) nonzero, first.1,
      second.1, Int.emod_eq_of_lt dividend one.val_bounds.2,
      Int.emod_eq_of_lt divisor two.val_bounds.2, ← Int.tdiv_eq_ediv_of_nonneg dividend]
    exact keep
  · rw [svalBinop_div_signed (by rw [first.1, second.1, promoted, sign]) nonzero, first.1,
      second.1, value_of_signed first sign, value_of_signed second sign, if_neg]
    · exact keep
    · intro special
      have least := type.kind.bounds.1
      have bound : type.lo ≤ one.val := first.2.1
      refine other ⟨Int.le_antisymm ?_ bound, special.2⟩
      rw [special.1]
      exact least

theorem svalBinop_div_least (rank : IntRank type) (first : one.OfType type)
    (second : two.OfType type) (least : one.val = type.lo) (minusOne : two.val = -1) :
    (svalBinop one .div two).val = if type.kind = .s64 then overflowQuotient else type.lo := by
  have promoted := promoted_unsigned rank
  have kinds := promoted_kind rank
  rcases lo_cases type with ⟨-, bottom⟩ | ⟨sign, -⟩
  · have divisor := second.2.1
    rw [minusOne] at divisor
    exact absurd divisor (by rw [bottom]; decide)
  · rw [svalBinop_div_signed (by rw [first.1, second.1, promoted, sign]) (by rw [minusOne]; decide),
      first.1, second.1, value_of_signed first sign, value_of_signed second sign, least, minusOne]
    have wraps : ∀ kind : IntKind, 32 ≤ kind.bits → kind.unsigned = false →
        kind.wrap (if kind.lo = -2 ^ 63 ∧ (-1 : Int) = -1 then 12345678 else kind.lo.tdiv (-1)) =
          if kind = .s64 then overflowQuotient else kind.lo := by
      intro kind
      cases kind <;> decide
    unfold Ctype.wrap
    rw [kinds]
    exact wraps type.kind rank sign

end Values

section Corners

variable {type : Ctype} {left right : RangeList} {quadrant : PosNeg}

/-- A quotient goes up or down with the dividend by the sign of the divisor. -/
def divideLeftDirection (quadrant : PosNeg) : Direction := quadrant.ofRight .down .up

def divideRightDirection (quadrant : PosNeg) : Direction := quadrant.ofLeft .up .down

theorem divideCorners_eq (quadrant : PosNeg) (left right : RangeList) :
    divideCorners quadrant left right =
      Corners.ofDirections (divideLeftDirection quadrant) (divideRightDirection quadrant) left
        right := by
  cases quadrant <;> rfl

theorem divide_along {s : Set Int} {y : Int} (sign : quadrant.Right y) (nonzero : y ≠ 0) :
    (divideLeftDirection quadrant).Along (fun x => x.tdiv y) s := by
  have up : 0 ≤ y → MonotoneOn (fun x : Int => x.tdiv y) s :=
    fun nonneg _ _ _ _ order => tdiv_mono (by omega) order
  have down : y < 0 → AntitoneOn (fun x : Int => x.tdiv y) s :=
    fun negative _ _ _ _ order => tdiv_anti negative order
  cases quadrant with
  | posPos => exact up sign
  | posNeg => exact down sign
  | negPos => exact up sign
  | negNeg => exact down sign

theorem divide_across {a b x : Int} (sign : quadrant.Left x) (side : 0 < a ∨ b < 0) :
    (divideRightDirection quadrant).Along (fun y => x.tdiv y) (Set.Icc a b) := by
  have apart : ∀ c ∈ Set.Icc a b, ∀ d ∈ Set.Icc a b, 0 < c ∨ d < 0 := by
    intro c inC d inD
    exact side.imp (fun start => Int.lt_of_lt_of_le start inC.1)
      (fun last => Int.lt_of_le_of_lt inD.2 last)
  have down : 0 ≤ x → AntitoneOn (fun y => x.tdiv y) (Set.Icc a b) :=
    fun nonneg c inC d inD order => tdiv_anti_right nonneg (apart c inC d inD) order
  have up : x < 0 → MonotoneOn (fun y => x.tdiv y) (Set.Icc a b) :=
    fun negative c inC d inD order => tdiv_mono_right negative (apart c inC d inD) order
  cases quadrant with
  | posPos => exact down sign
  | posNeg => exact down sign
  | negPos => exact up sign
  | negNeg => exact up sign

/-- The divisors of a quadrant lie on one side of zero. -/
theorem divisors_side (canonical : Canonical type right) (some : right ≠ [])
    (signs : ∀ r ∈ rlSet right, quadrant.Right r) (nonzero : ∀ r ∈ rlSet right, r ≠ 0) :
    0 < (rlMin right).val ∨ (rlMax right).val < 0 := by
  have least := nonzero _ (rlMin_mem canonical some)
  have low := signs _ (rlMin_mem canonical some)
  have high := signs _ (rlMax_mem canonical some)
  have positive : 0 ≤ (rlMin right).val → 0 < (rlMin right).val := fun nonneg => by omega
  cases quadrant with
  | posPos => exact .inl (positive low)
  | posNeg => exact .inr high
  | negPos => exact .inl (positive low)
  | negNeg => exact .inr high

/-- Every quotient of a quadrant lies between those at the corners. -/
theorem divideCorners_spec (first : Canonical type left) (second : Canonical type right)
    (someLeft : left ≠ []) (someRight : right ≠ [])
    (signLeft : ∀ l ∈ rlSet left, quadrant.Left l) (signRight : ∀ r ∈ rlSet right, quadrant.Right r)
    (nonzero : ∀ r ∈ rlSet right, r ≠ 0) :
    (divideCorners quadrant left right).Within type left right ∧
      ∀ l ∈ rlSet left, ∀ r ∈ rlSet right,
        (divideCorners quadrant left right).lowLeft.val.tdiv
            (divideCorners quadrant left right).lowRight.val ≤ l.tdiv r ∧
          l.tdiv r ≤ (divideCorners quadrant left right).highLeft.val.tdiv
            (divideCorners quadrant left right).highRight.val := by
  have side := divisors_side second someRight signRight nonzero
  have apart : ∀ y ∈ Set.Icc (rlMin right).val (rlMax right).val, y ≠ 0 := by
    intro y inside zero
    rcases side with start | last
    · exact absurd inside.1 (by omega)
    · exact absurd inside.2 (by omega)
  have minLeft := signLeft _ (rlMin_mem first someLeft)
  have maxLeft := signLeft _ (rlMax_mem first someLeft)
  have minRight := signRight _ (rlMin_mem second someRight)
  have maxRight := signRight _ (rlMax_mem second someRight)
  rw [divideCorners_eq]
  refine ⟨Corners.ofDirections_within first second someLeft someRight, ?_⟩
  exact fun l inLeft r inRight =>
    @Corners.ofDirections_bounds type left right (divideLeftDirection quadrant)
      (divideRightDirection quadrant) first second Int.tdiv
      (fun y inside => divide_along (PosNeg.right_of_mem minRight maxRight inside) (apart y inside))
      (fun x inside => divide_across (PosNeg.left_of_mem minLeft maxLeft inside) side)
      l r inLeft inRight

end Corners

section Helper

variable {type : Ctype} {left right : RangeList} {quadrant : PosNeg}

theorem divideRlHelper_fits (first : Canonical type left) (second : Canonical type right)
    (rank : IntRank type) (signLeft : ∀ l ∈ rlSet left, quadrant.Left l)
    (signRight : ∀ r ∈ rlSet right, quadrant.Right r)
    (fits : ¬ (type.lo ∈ rlSet left ∧ -1 ∈ rlSet right)) :
    OfKind type.kind (divideRlHelper quadrant left right) ∧
      ∀ x, x ∈ rlSet (divideRlHelper quadrant left right) ↔
        QuotientsAround (rlSet left) {r | r ∈ rlSet right ∧ r ≠ 0} x := by
  have kept := cutZero_kept second signRight
  unfold divideRlHelper
  dsimp only
  split_ifs with null
  · refine ⟨OfKind.nil type.kind, fun x => ⟨fun impossible => absurd impossible (mem_rlSet_nil x),
      ?_⟩⟩
    rintro ⟨⟨l, inLeft, r, inRight, -⟩, -⟩
    exact (null.elim (nonempty_of_mem inLeft)
      (nonempty_of_mem ((kept.mem_iff r).mpr inRight))).elim
  · obtain ⟨someLeft, someRight⟩ := not_or.mp null
    obtain ⟨within, bounds⟩ := divideCorners_spec first kept.canonical someLeft someRight signLeft
      (fun r member => signRight r ((kept.mem_iff r).mp member).1)
      (fun r member => ((kept.mem_iff r).mp member).2)
    generalize divideCorners quadrant left (cutZero quadrant right) = corners at within bounds
    have lowRight := (kept.mem_iff _).mp within.lowRight.2
    have highRight := (kept.mem_iff _).mp within.highRight.2
    have lowVal := svalBinop_div_val rank within.lowLeft.1 within.lowRight.1 lowRight.2
      fun least => fits ⟨least.1 ▸ within.lowLeft.2, least.2 ▸ lowRight.1⟩
    have highVal := svalBinop_div_val rank within.highLeft.1 within.highRight.1 highRight.2
      fun least => fits ⟨least.1 ▸ within.highLeft.2, least.2 ▸ highRight.1⟩
    obtain ⟨result, members⟩ := allocRl_spec
      (quotient_ofType within.lowLeft.1 within.lowRight.1)
      (quotient_ofType within.highLeft.1 within.highRight.1)
    have order := bounds _ within.lowLeft.2 _ within.lowRight.2
    refine ⟨⟨_, promoted_kind rank, result⟩, fun x => ?_⟩
    rw [members, lowVal, highVal, endsSet_of_le order.2, Set.mem_Icc]
    constructor
    · intro inside
      exact ⟨⟨_, within.lowLeft.2, _, lowRight, inside.1⟩,
        ⟨_, within.highLeft.2, _, highRight, inside.2⟩⟩
    · rintro ⟨⟨l, inLeft, r, inRight, below⟩, ⟨l', inLeft', r', inRight', above⟩⟩
      exact ⟨Int.le_trans (bounds l inLeft r ((kept.mem_iff r).mpr inRight)).1 below,
        Int.le_trans above (bounds l' inLeft' r' ((kept.mem_iff r').mpr inRight')).2⟩

/-- The values of the quadrant with the quotient that overflows: up to the value the code has
for it, when some quotient is not above that; else every quotient that fits. -/
structure OverflowSpec (type : Ctype) (left right result : RangeList) : Prop where
  kept : OfKind type.kind result
  short : type.kind = .s64 →
    (∃ l ∈ rlSet left, ∃ r ∈ rlSet right, l.tdiv r ≤ overflowQuotient) →
    ∀ x, x ∈ rlSet result ↔
      (∃ l ∈ rlSet left, ∃ r ∈ rlSet right, l.tdiv r ≤ x) ∧ x ≤ overflowQuotient
  full : ¬ (type.kind = .s64 ∧
      ∃ l ∈ rlSet left, ∃ r ∈ rlSet right, l.tdiv r ≤ overflowQuotient) →
    ∀ l ∈ rlSet left, ∀ r ∈ rlSet right, l.tdiv r ≤ type.hi → l.tdiv r ∈ rlSet result

theorem divideRlHelper_overflow (first : Canonical type left) (second : Canonical type right)
    (rank : IntRank type) (negLeft : ∀ l ∈ rlSet left, l < 0) (negRight : ∀ r ∈ rlSet right, r < 0)
    (least : type.lo ∈ rlSet left) (minusOne : -1 ∈ rlSet right) :
    OverflowSpec type left right (divideRlHelper .negNeg left right) := by
  have someLeft := nonempty_of_mem least
  have someRight := nonempty_of_mem minusOne
  have signed : type.lo = -(type.hi + 1) := by
    rcases lo_cases type with ⟨-, bottom⟩ | ⟨-, bottom⟩
    · exact absurd (negLeft _ least) (by rw [bottom]; decide)
    · exact bottom
  obtain ⟨within, bounds⟩ := @divideCorners_spec type left right .negNeg first second someLeft
    someRight negLeft negRight fun r member => Int.ne_of_lt (negRight r member)
  have unfolded : divideRlHelper .negNeg left right =
      allocRl (svalBinop (divideCorners .negNeg left right).lowLeft .div
          (divideCorners .negNeg left right).lowRight)
        (svalBinop (divideCorners .negNeg left right).highLeft .div
          (divideCorners .negNeg left right).highRight) := by
    unfold divideRlHelper cutZero
    exact if_neg (not_or.mpr ⟨someLeft, someRight⟩)
  have highLeft : (divideCorners .negNeg left right).highLeft.val = type.lo :=
    Int.le_antisymm (rlMin_le first least) (first.mem_type (rlMin_mem first someLeft)).1
  have highRight : (divideCorners .negNeg left right).highRight.val = -1 :=
    Int.le_antisymm (Int.le_sub_one_of_lt (negRight _ (rlMax_mem second someRight)))
      (le_rlMax second minusOne)
  rw [unfolded]
  generalize divideCorners .negNeg left right = corners at within bounds highLeft highRight
  have highVal := svalBinop_div_least rank within.highLeft.1 within.highRight.1 highLeft highRight
  have lowTyped := quotient_ofType within.lowLeft.1 within.lowRight.1
  have highTyped := quotient_ofType within.highLeft.1 within.highRight.1
  obtain ⟨result, members⟩ := allocRl_spec lowTyped highTyped
  have lowRight := Int.ne_of_lt (negRight _ within.lowRight.2)
  have lowVal : corners.lowLeft.val.tdiv corners.lowRight.val ≤ type.hi →
      (svalBinop corners.lowLeft .div corners.lowRight).val =
        corners.lowLeft.val.tdiv corners.lowRight.val := by
    intro fits
    refine svalBinop_div_val rank within.lowLeft.1 within.lowRight.1 lowRight fun same => ?_
    rw [same.1, same.2, Int.tdiv_neg, Int.tdiv_one] at fits
    omega
  have nonneg : 0 ≤ corners.lowLeft.val.tdiv corners.lowRight.val :=
    Int.tdiv_nonneg_of_nonpos_of_nonpos (Int.le_of_lt (negLeft _ within.lowLeft.2))
      (Int.le_of_lt (negRight _ within.lowRight.2))
  refine ⟨⟨_, promoted_kind rank, result⟩, fun long => ?_, fun other l inLeft r inRight fits => ?_⟩
  · rintro ⟨l, inLeft, r, inRight, small⟩ x
    have bound := bounds l inLeft r inRight
    have top : type.hi = 2 ^ 63 - 1 := by
      unfold Ctype.hi
      rw [long]
      rfl
    have low := lowVal (by unfold overflowQuotient at small; omega)
    rw [members, highVal, if_pos long, low, endsSet_of_le (Int.le_trans bound.1 small), Set.mem_Icc]
    constructor
    · intro inside
      exact ⟨⟨_, within.lowLeft.2, _, within.lowRight.2, inside.1⟩, inside.2⟩
    · rintro ⟨⟨l', inLeft', r', inRight', below⟩, above⟩
      exact ⟨Int.le_trans (bounds l' inLeft' r' inRight').1 below, above⟩
  · have bound := (bounds l inLeft r inRight).1
    have low := lowVal (Int.le_trans bound fits)
    have reversed : ¬ corners.lowLeft.val.tdiv corners.lowRight.val ≤
        if type.kind = .s64 then overflowQuotient else type.lo := by
      split_ifs with long
      · exact fun small =>
          other ⟨long, _, within.lowLeft.2, _, within.lowRight.2, small⟩
      · have bottom := negLeft _ least
        omega
    have inType := Int.le_trans nonneg bound
    have bottom := negLeft _ least
    rw [members, highVal, low, endsSet, if_neg reversed, promoted_lo rank, promoted_hi rank]
    exact ⟨by omega, fits⟩

end Helper

section Quadrants

variable {type : Ctype} {left right : RangeList} {quadrant : PosNeg}

def divideQuadrants (left right : RangeList) : RangeList :=
  unionQuadrants divideRlHelper (getNegRl left) (getPosRl left) (getNegRl right) (getPosRl right)

section

variable (first : Canonical type left) (second : Canonical type right) (rank : IntRank type)
include first second rank

theorem quadrant_fits (other : quadrant ≠ .negNeg ∨ ¬ (type.lo ∈ rlSet left ∧ -1 ∈ rlSet right)) :
    OfKind type.kind (divideRlHelper quadrant (quadrant.ofLeft (getNegRl left) (getPosRl left))
        (quadrant.ofRight (getNegRl right) (getPosRl right))) ∧
      ∀ x, x ∈ rlSet (divideRlHelper quadrant (quadrant.ofLeft (getNegRl left) (getPosRl left))
          (quadrant.ofRight (getNegRl right) (getPosRl right))) ↔
        QuotientsAround {l | l ∈ rlSet left ∧ quadrant.Left l}
          {r | r ∈ rlSet right ∧ quadrant.Right r ∧ r ≠ 0} x := by
  have keptLeft := left_kept first quadrant
  have keptRight := right_kept second quadrant
  have fits : ¬ (type.lo ∈ rlSet (quadrant.ofLeft (getNegRl left) (getPosRl left)) ∧
      -1 ∈ rlSet (quadrant.ofRight (getNegRl right) (getPosRl right))) := by
    rintro ⟨least, minusOne⟩
    obtain ⟨least, low⟩ := (keptLeft.mem_iff _).mp least
    obtain ⟨minusOne, negative⟩ := (keptRight.mem_iff _).mp minusOne
    have bound := (second.mem_type minusOne).1
    refine other.elim (fun differ => differ ?_) fun none => none ⟨least, minusOne⟩
    have belowZero : ¬ 0 ≤ type.lo := by omega
    cases quadrant with
    | posPos => exact absurd low belowZero
    | posNeg => exact absurd low belowZero
    | negPos =>
      have nonneg : (0 : Int) ≤ -1 := negative
      exact absurd nonneg (by decide)
    | negNeg => rfl
  obtain ⟨kind, members⟩ := divideRlHelper_fits keptLeft.canonical keptRight.canonical rank
    (fun l member => ((keptLeft.mem_iff l).mp member).2)
    (fun r member => ((keptRight.mem_iff r).mp member).2) fits
  have dividends : rlSet (quadrant.ofLeft (getNegRl left) (getPosRl left)) =
      {l | l ∈ rlSet left ∧ quadrant.Left l} := Set.ext keptLeft.mem_iff
  have divisors : {r | r ∈ rlSet (quadrant.ofRight (getNegRl right) (getPosRl right)) ∧ r ≠ 0} =
      {r | r ∈ rlSet right ∧ quadrant.Right r ∧ r ≠ 0} := by
    ext r
    simp only [Set.mem_ofPred_eq, keptRight.mem_iff, and_assoc]
  rw [dividends, divisors] at members
  exact ⟨kind, members⟩

theorem quadrant_overflow (least : type.lo ∈ rlSet left) (minusOne : -1 ∈ rlSet right) :
    OverflowSpec type (getNegRl left) (getNegRl right)
      (divideRlHelper .negNeg (getNegRl left) (getNegRl right)) := by
  have keptLeft := getNegRl_kept first
  have keptRight := getNegRl_kept second
  have bound := (second.mem_type minusOne).1
  exact divideRlHelper_overflow keptLeft.canonical keptRight.canonical rank
    (fun l member => ((keptLeft.mem_iff l).mp member).2)
    (fun r member => ((keptRight.mem_iff r).mp member).2)
    ((keptLeft.mem_iff _).mpr ⟨least, by omega⟩) ((keptRight.mem_iff _).mpr ⟨minusOne, by decide⟩)

theorem divideQuadrants_members (x : Int) :
    x ∈ rlSet (divideQuadrants left right) ↔
      ∃ quadrant : PosNeg, x ∈ rlSet (divideRlHelper quadrant
        (quadrant.ofLeft (getNegRl left) (getPosRl left))
        (quadrant.ofRight (getNegRl right) (getPosRl right))) := by
  refine (@unionQuadrants_ofKind type.kind _ _ _ _ divideRlHelper fun quadrant => ?_).2 x
  by_cases overflow : type.lo ∈ rlSet left ∧ -1 ∈ rlSet right
  · by_cases last : quadrant = .negNeg
    · subst last
      exact (quadrant_overflow first second rank overflow.1 overflow.2).kept
    · exact (quadrant_fits first second rank (.inl last)).1
  · exact (quadrant_fits first second rank (.inr overflow)).1

/-- A quotient of a quadrant without overflow is in the result. -/
theorem quotient_mem {l r : Int} (inLeft : l ∈ rlSet left) (inRight : r ∈ rlSet right)
    (nonzero : r ≠ 0) (signLeft : quadrant.Left l) (signRight : quadrant.Right r)
    (other : quadrant ≠ .negNeg ∨ ¬ (type.lo ∈ rlSet left ∧ -1 ∈ rlSet right)) :
    l.tdiv r ∈ rlSet (divideQuadrants left right) := by
  refine (divideQuadrants_members first second rank _).mpr ⟨quadrant, ?_⟩
  exact ((quadrant_fits first second rank other).2 _).mpr
    ⟨⟨l, ⟨inLeft, signLeft⟩, r, ⟨inRight, signRight, nonzero⟩, Int.le_refl _⟩,
      ⟨l, ⟨inLeft, signLeft⟩, r, ⟨inRight, signRight, nonzero⟩, Int.le_refl _⟩⟩

/-- Every quotient is kept unless the value of the overflow is the upper end of its quadrant. -/
theorem divideQuadrants_full
    (full : ¬ (type.kind = .s64 ∧ type.lo ∈ rlSet left ∧ -1 ∈ rlSet right ∧
      ∃ l ∈ rlSet left, ∃ r ∈ rlSet right, l < 0 ∧ r < 0 ∧ l.tdiv r ≤ overflowQuotient)) :
    ∀ l ∈ rlSet left, ∀ r ∈ rlSet right, r ≠ 0 → l.tdiv r ≤ type.hi →
      l.tdiv r ∈ rlSet (divideQuadrants left right) := by
  intro l inLeft r inRight nonzero fits
  obtain ⟨quadrant, signLeft, signRight⟩ := PosNeg.exists_quadrant l r
  by_cases overflow : type.lo ∈ rlSet left ∧ -1 ∈ rlSet right
  · by_cases last : quadrant = .negNeg
    · subst last
      have keptLeft := getNegRl_kept first
      have keptRight := getNegRl_kept second
      refine (divideQuadrants_members first second rank _).mpr ⟨.negNeg, ?_⟩
      refine (quadrant_overflow first second rank overflow.1 overflow.2).full ?_ l
        ((keptLeft.mem_iff l).mpr ⟨inLeft, signLeft⟩) r
        ((keptRight.mem_iff r).mpr ⟨inRight, signRight⟩) fits
      rintro ⟨long, l', inLeft', r', inRight', small⟩
      obtain ⟨inLeft', negLeft⟩ := (keptLeft.mem_iff l').mp inLeft'
      obtain ⟨inRight', negRight⟩ := (keptRight.mem_iff r').mp inRight'
      exact full ⟨long, overflow.1, overflow.2, l', inLeft', r', inRight', negLeft, negRight, small⟩
    · exact quotient_mem first second rank inLeft inRight nonzero signLeft signRight (.inl last)
  · exact quotient_mem first second rank inLeft inRight nonzero signLeft signRight (.inr overflow)

/-- With this value as the upper end, the greater quotients of negative values must be between
two quotients of the other values. -/
theorem divideQuadrants_short (long : type.kind = .s64) (least : type.lo ∈ rlSet left)
    (minusOne : -1 ∈ rlSet right)
    (small : ∃ l ∈ rlSet left, ∃ r ∈ rlSet right, l < 0 ∧ r < 0 ∧ l.tdiv r ≤ overflowQuotient) :
    (∀ l ∈ rlSet left, ∀ r ∈ rlSet right, r ≠ 0 → type.lo ≤ l.tdiv r → l.tdiv r ≤ type.hi →
        l.tdiv r ∈ rlSet (divideQuadrants left right)) ↔
      ∀ l ∈ rlSet left, ∀ r ∈ rlSet right, l < 0 → r < 0 → l.tdiv r ≤ type.hi →
        l.tdiv r ≤ overflowQuotient ∨
          QuotientsAround {l | l ∈ rlSet left ∧ 0 ≤ l} {r | r ∈ rlSet right ∧ 0 < r}
            (l.tdiv r) := by
  have keptLeft := getNegRl_kept first
  have keptRight := getNegRl_kept second
  have bottom := first.mem_type least |>.1
  have belowZero : type.lo ≤ -1 := (second.mem_type minusOne).1
  have negNeg := (quadrant_overflow first second rank least minusOne).short long (by
    obtain ⟨l, inLeft, r, inRight, negLeft, negRight, small⟩ := small
    exact ⟨l, (keptLeft.mem_iff l).mpr ⟨inLeft, negLeft⟩, r,
      (keptRight.mem_iff r).mpr ⟨inRight, negRight⟩, small⟩)
  have positive : {r | r ∈ rlSet right ∧ PosNeg.posPos.Right r ∧ r ≠ 0} =
      {r | r ∈ rlSet right ∧ 0 < r} := by
    ext r
    refine and_congr_right fun _ => ⟨fun sign => ?_, fun above => ⟨Int.le_of_lt above, by omega⟩⟩
    have nonneg : 0 ≤ r := sign.1
    exact lt_of_le_of_ne nonneg (Ne.symm sign.2)
  have posPos := (@quadrant_fits type left right .posPos first second rank (.inl (by decide))).2
  rw [positive] at posPos
  constructor
  · intro contains l inLeft r inRight negLeft negRight fits
    have nonneg : 0 ≤ l.tdiv r :=
      Int.tdiv_nonneg_of_nonpos_of_nonpos (Int.le_of_lt negLeft) (Int.le_of_lt negRight)
    obtain ⟨quadrant, inside⟩ := (divideQuadrants_members first second rank _).mp
      (contains l inLeft r inRight (Int.ne_of_lt negRight) (by omega) fits)
    cases quadrant with
    | posPos => exact .inr ((posPos _).mp inside)
    | posNeg =>
      obtain ⟨-, l', ⟨-, signLeft⟩, r', ⟨-, signRight, -⟩, above⟩ :=
        ((quadrant_fits first second rank (.inl (by decide))).2 _).mp inside
      have nonpos := Int.tdiv_nonpos_of_nonneg_of_nonpos signLeft (Int.le_of_lt signRight)
      unfold overflowQuotient
      omega
    | negPos =>
      obtain ⟨-, l', ⟨-, signLeft⟩, r', ⟨-, signRight, -⟩, above⟩ :=
        ((quadrant_fits first second rank (.inl (by decide))).2 _).mp inside
      have opposite := Int.tdiv_nonneg (a := -l') (b := r') (by
        have negative : l' < 0 := signLeft
        omega) signRight
      rw [Int.neg_tdiv] at opposite
      unfold overflowQuotient
      omega
    | negNeg => exact .inl ((negNeg _).mp inside).2
  · intro sound l inLeft r inRight nonzero low fits
    obtain ⟨quadrant, signLeft, signRight⟩ := PosNeg.exists_quadrant l r
    by_cases last : quadrant = .negNeg
    · subst last
      rcases sound l inLeft r inRight signLeft signRight fits with atMost | around
      · refine (divideQuadrants_members first second rank _).mpr ⟨.negNeg, (negNeg _).mpr ?_⟩
        exact ⟨⟨l, (keptLeft.mem_iff l).mpr ⟨inLeft, signLeft⟩, r,
          (keptRight.mem_iff r).mpr ⟨inRight, signRight⟩, Int.le_refl _⟩, atMost⟩
      · exact (divideQuadrants_members first second rank _).mpr ⟨.posPos, (posPos _).mpr around⟩
    · exact quotient_mem first second rank inLeft inRight nonzero signLeft signRight (.inl last)

end

end Quadrants

section Quotient

variable {type : Ctype} {left right : RangeList}

theorem tdiv_unsigned (unsigned : typeUnsigned type = true) (first : Canonical type left)
    (second : Canonical type right) {l r : Int} (inLeft : l ∈ rlSet left)
    (inRight : r ∈ rlSet right) : type.lo ≤ l.tdiv r ∧ l.tdiv r ≤ type.hi := by
  have bottom : type.lo = 0 := IntKind.lo_of_unsigned unsigned
  obtain ⟨start, last⟩ := first.mem_type inLeft
  have divisor := (second.mem_type inRight).1
  rw [bottom] at start divisor ⊢
  exact ⟨Int.tdiv_nonneg start divisor, Int.le_trans (Int.tdiv_le_self _ start) last⟩

/-- `rl_handle_divide` is null or holds every quotient that the type has, exactly when
`DivideSound` holds. -/
theorem rlHandleDivide_contains_iff (first : Canonical type left) (second : Canonical type right)
    (rank : IntRank type) (notWhole : typeUnsigned type = false → isWholeRl right = false) :
    (rlHandleDivide left right = [] ∨ ∀ l ∈ rlSet left, ∀ r ∈ rlSet right, r ≠ 0 →
        type.lo ≤ l.tdiv r → l.tdiv r ≤ type.hi → l.tdiv r ∈ rlSet (rlHandleDivide left right)) ↔
      DivideSound type left right := by
  unfold rlHandleDivide
  cases zero : knownZero left with
  | some sval =>
    obtain ⟨typed, value, single⟩ := knownZero_eq_some first zero
    dsimp only
    refine iff_of_true (.inr fun l inLeft r inRight nonzero low high => ?_)
      ⟨fun _ _ l inLeft r inRight nonzero => ?_, fun long _ least => ?_⟩
    · rw [(single l).mp inLeft, Int.zero_tdiv, allocRl_eq typed typed (Int.le_refl _),
        rlSet_singleton, value]
      exact ⟨Int.le_refl _, Int.le_refl _⟩
    · rw [(single l).mp inLeft, Int.zero_tdiv]
      exact (single 0).mpr rfl
    · have bottom := (single _).mp least
      unfold Ctype.lo at bottom
      rw [long] at bottom
      exact absurd bottom (by decide)
  | none =>
    dsimp only
    split_ifs with wholeLeft wholeRight
    · refine iff_of_true (.inl rfl) ⟨fun unsigned _ l inLeft r inRight nonzero => ?_,
        fun _ other => absurd other (by rw [wholeLeft]; decide)⟩
      obtain ⟨low, high⟩ := tdiv_unsigned unsigned first second inLeft inRight
      exact (isWholeRl_iff first).mp wholeLeft _ low high
    · have unsigned : typeUnsigned type = true := by
        by_contra sign
        exact absurd (notWhole (Bool.not_eq_true _ |>.mp sign)) (by rw [wholeRight]; decide)
      constructor
      · intro sound
        refine ⟨fun _ _ l inLeft r inRight nonzero => ?_, fun long => ?_⟩
        · obtain ⟨low, high⟩ := tdiv_unsigned unsigned first second inLeft inRight
          rcases sound with null | contains
          · exact absurd inLeft (null ▸ mem_rlSet_nil l)
          · exact contains l inLeft r inRight nonzero low high
        · unfold typeUnsigned at unsigned
          rw [long] at unsigned
          exact absurd unsigned (by decide)
      · rintro ⟨closed, -⟩
        exact .inr fun l inLeft r inRight nonzero _ _ =>
          closed unsigned wholeRight l inLeft r inRight nonzero
    · change (divideQuadrants left right = [] ∨ ∀ l ∈ rlSet left, ∀ r ∈ rlSet right, r ≠ 0 →
        type.lo ≤ l.tdiv r → l.tdiv r ≤ type.hi →
          l.tdiv r ∈ rlSet (divideQuadrants left right)) ↔ _
      by_cases short : type.kind = .s64 ∧ type.lo ∈ rlSet left ∧ -1 ∈ rlSet right ∧
          ∃ l ∈ rlSet left, ∃ r ∈ rlSet right, l < 0 ∧ r < 0 ∧ l.tdiv r ≤ overflowQuotient
      · obtain ⟨long, least, minusOne, small⟩ := short
        have bounded := divideQuadrants_short first second rank long least minusOne small
        have filled : divideQuadrants left right ≠ [] := by
          obtain ⟨l, inLeft, r, inRight, negLeft, negRight, small⟩ := small
          have keptLeft := getNegRl_kept first
          have keptRight := getNegRl_kept second
          have inside : l ∈ rlSet (getNegRl left) := (keptLeft.mem_iff l).mpr ⟨inLeft, negLeft⟩
          have member : r ∈ rlSet (getNegRl right) :=
            (keptRight.mem_iff r).mpr ⟨inRight, negRight⟩
          refine nonempty_of_mem (x := l.tdiv r)
            ((divideQuadrants_members first second rank _).mpr ⟨.negNeg, ?_⟩)
          exact ((quadrant_overflow first second rank least minusOne).short long
            ⟨l, inside, r, member, small⟩ _).mpr ⟨⟨l, inside, r, member, Int.le_refl _⟩, small⟩
        rw [or_iff_right filled, bounded]
        constructor
        · exact fun sound =>
            ⟨fun _ whole => absurd whole wholeRight, fun _ _ _ _ _ => sound⟩
        · exact fun sound =>
            sound.2 long (Bool.not_eq_true _ |>.mp wholeLeft) least minusOne small
      · refine iff_of_true (.inr fun l inLeft r inRight nonzero _ fits =>
          divideQuadrants_full first second rank short l inLeft r inRight nonzero fits)
          ⟨fun _ whole => absurd whole wholeRight, fun long _ least minusOne small => ?_⟩
        exact absurd ⟨long, least, minusOne, small⟩ short

/-- The theorem for `10-20` and `2-5`. -/
theorem rlHandleDivide_contains_iff_small :
    (rlHandleDivide [⟨intCtype.ofInt 10, intCtype.ofInt 20⟩]
          [⟨intCtype.ofInt 2, intCtype.ofInt 5⟩] = [] ∨
        ∀ l ∈ rlSet [⟨intCtype.ofInt 10, intCtype.ofInt 20⟩],
          ∀ r ∈ rlSet [⟨intCtype.ofInt 2, intCtype.ofInt 5⟩], r ≠ 0 →
            intCtype.lo ≤ l.tdiv r → l.tdiv r ≤ intCtype.hi →
              l.tdiv r ∈ rlSet (rlHandleDivide [⟨intCtype.ofInt 10, intCtype.ofInt 20⟩]
                [⟨intCtype.ofInt 2, intCtype.ofInt 5⟩])) ↔
      DivideSound intCtype [⟨intCtype.ofInt 10, intCtype.ofInt 20⟩]
        [⟨intCtype.ofInt 2, intCtype.ofInt 5⟩] :=
  @rlHandleDivide_contains_iff intCtype _ _ (by decide) (by decide) (by decide) (by decide)

/-- Ten divided by any unsigned number is said to be ten, and no quotient of negative numbers
is above the value of the overflow, once the overflow is among them. -/
theorem rlHandleDivide_misses :
    (Canonical uintCtype [⟨uintCtype.ofInt 10, uintCtype.ofInt 10⟩] ∧
      rlHandleDivide [⟨uintCtype.ofInt 10, uintCtype.ofInt 10⟩] (allocWholeRl (some uintCtype)) ≠
        [] ∧
      2 ∈ rlSet (allocWholeRl (some uintCtype)) ∧
      (10 : Int).tdiv 2 ∉ rlSet (rlHandleDivide [⟨uintCtype.ofInt 10, uintCtype.ofInt 10⟩]
        (allocWholeRl (some uintCtype)))) ∧
    Canonical llongCtype [⟨llongCtype.ofInt (-2 ^ 63), llongCtype.ofInt (-1)⟩] ∧
      Canonical llongCtype [⟨llongCtype.ofInt (-2), llongCtype.ofInt (-1)⟩] ∧
      isWholeRl [⟨llongCtype.ofInt (-2), llongCtype.ofInt (-1)⟩] = false ∧
      rlHandleDivide [⟨llongCtype.ofInt (-2 ^ 63), llongCtype.ofInt (-1)⟩]
        [⟨llongCtype.ofInt (-2), llongCtype.ofInt (-1)⟩] ≠ [] ∧
      -100000000 ∈ rlSet [⟨llongCtype.ofInt (-2 ^ 63), llongCtype.ofInt (-1)⟩] ∧
      (-100000000 : Int).tdiv (-1) ∉ rlSet (rlHandleDivide
        [⟨llongCtype.ofInt (-2 ^ 63), llongCtype.ofInt (-1)⟩]
        [⟨llongCtype.ofInt (-2), llongCtype.ofInt (-1)⟩]) := by
  decide

end Quotient

end SmatchFormal.RangeMath
