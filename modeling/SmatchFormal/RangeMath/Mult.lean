import SmatchFormal.RangeMath.Quadrants

/-!
# Products of range lists

`rl_handle_mult` multiplies the quadrants.  In a quadrant a product goes up or down with each
factor by the sign of the other one, so that it lies between the products at the two corners
that `mult_rl_helper` takes.
-/

namespace SmatchFormal.RangeMath

open SmatchFormal.Ranges SmatchFormal.Extra SmatchFormal.Lib.Corners

/-! ## The code -/

def multCorners (quadrant : PosNeg) (left right : RangeList) : Corners :=
  match quadrant with
  | .posPos => ⟨rlMin left, rlMin right, rlMax left, rlMax right⟩
  | .posNeg => ⟨rlMax left, rlMin right, rlMin left, rlMax right⟩
  | .negPos => ⟨rlMin left, rlMax right, rlMax left, rlMin right⟩
  | .negNeg => ⟨rlMax left, rlMax right, rlMin left, rlMin right⟩

def multRlHelper (quadrant : PosNeg) (left right : RangeList) : RangeList :=
  if left = [] ∨ right = [] then []
  else cornerRange .mul (multCorners quadrant left right) left

def rlHandleMult (left right : RangeList) : RangeList :=
  match knownZero left with
  | some sval => allocRl sval sval
  | none =>
    match knownZero right with
    | some sval => allocRl sval sval
    | none =>
      if isWholeRl left || isWholeRl right then []
      else unionQuadrants multRlHelper (getNegRl left) (getPosRl left) (getNegRl right)
        (getPosRl right)

section Corners

variable {type : Ctype} {left right : RangeList} {quadrant : PosNeg}

/-- A product with a number on the right goes up or down by its sign. -/
def multLeftDirection (quadrant : PosNeg) : Direction := quadrant.ofRight .down .up

def multRightDirection (quadrant : PosNeg) : Direction := quadrant.ofLeft .down .up

theorem multCorners_eq (quadrant : PosNeg) (left right : RangeList) :
    multCorners quadrant left right =
      Corners.ofDirections (multLeftDirection quadrant) (multRightDirection quadrant) left
        right := by
  cases quadrant <;> rfl

theorem mult_along {s : Set Int} {y : Int} (sign : quadrant.Right y) :
    (multLeftDirection quadrant).Along (fun x => x * y) s := by
  have up : 0 ≤ y → MonotoneOn (fun x => x * y) s :=
    fun nonneg _ _ _ _ order => Int.mul_le_mul_of_nonneg_right order nonneg
  have down : y < 0 → AntitoneOn (fun x => x * y) s :=
    fun negative _ _ _ _ order => Int.mul_le_mul_of_nonpos_right order (Int.le_of_lt negative)
  cases quadrant with
  | posPos => exact up sign
  | posNeg => exact down sign
  | negPos => exact up sign
  | negNeg => exact down sign

theorem mult_across {s : Set Int} {x : Int} (sign : quadrant.Left x) :
    (multRightDirection quadrant).Along (fun y => x * y) s := by
  have up : 0 ≤ x → MonotoneOn (fun y => x * y) s :=
    fun nonneg _ _ _ _ order => Int.mul_le_mul_of_nonneg_left order nonneg
  have down : x < 0 → AntitoneOn (fun y => x * y) s :=
    fun negative _ _ _ _ order => Int.mul_le_mul_of_nonpos_left (Int.le_of_lt negative) order
  cases quadrant with
  | posPos => exact up sign
  | posNeg => exact up sign
  | negPos => exact down sign
  | negNeg => exact down sign

theorem multRlHelper_spec (first : Canonical type left) (second : Canonical type right)
    (rank : IntRank type) (signLeft : ∀ l ∈ rlSet left, quadrant.Left l)
    (signRight : ∀ r ∈ rlSet right, quadrant.Right r) :
    OfKind type.kind (multRlHelper quadrant left right) ∧
      ∀ l ∈ rlSet left, ∀ r ∈ rlSet right,
        type.wrap (l * r) ∈ rlSet (multRlHelper quadrant left right) := by
  unfold multRlHelper
  split_ifs with null
  · refine ⟨OfKind.nil type.kind, fun l inLeft r inRight => ?_⟩
    exact (null.elim (nonempty_of_mem inLeft) (nonempty_of_mem inRight)).elim
  · obtain ⟨someLeft, someRight⟩ := not_or.mp null
    have minLeft := signLeft _ (rlMin_mem first someLeft)
    have maxLeft := signLeft _ (rlMax_mem first someLeft)
    have minRight := signRight _ (rlMin_mem second someRight)
    have maxRight := signRight _ (rlMax_mem second someRight)
    have within := @Corners.ofDirections_within type left right (multLeftDirection quadrant)
      (multRightDirection quadrant) first second someLeft someRight
    have bounds := fun l inLeft r inRight =>
      @Corners.ofDirections_bounds type left right (multLeftDirection quadrant)
        (multRightDirection quadrant) first second (fun x y => x * y)
        (fun y inside => mult_along (PosNeg.right_of_mem minRight maxRight inside))
        (fun x inside => mult_across (PosNeg.left_of_mem minLeft maxLeft inside)) l r inLeft inRight
    dsimp only at bounds
    rw [← multCorners_eq] at within bounds
    obtain ⟨kept, members⟩ := @cornerRange_spec type left _ .mul _ rfl rank within.typed first
      someLeft
    refine ⟨kept, fun l inLeft r inRight => ?_⟩
    obtain ⟨above, below⟩ := bounds l inLeft r inRight
    exact members _ above below

end Corners

section Product

variable {type : Ctype} {left right : RangeList}

theorem zeroRange_mem {rl : RangeList} {sval : Sval} (canonical : Canonical type rl)
    (found : knownZero rl = some sval) : (0 : Int) ∈ rlSet (allocRl sval sval) := by
  obtain ⟨typed, value, -⟩ := knownZero_eq_some canonical found
  rw [allocRl_eq typed typed (Int.le_refl _), rlSet_singleton, value]
  exact ⟨Int.le_refl _, Int.le_refl _⟩

/-- `rl_handle_mult` is null or holds every product that the type has. -/
theorem rlHandleMult_contains (first : Canonical type left) (second : Canonical type right)
    (rank : IntRank type) :
    rlHandleMult left right = [] ∨ ∀ l ∈ rlSet left, ∀ r ∈ rlSet right,
      type.lo ≤ l * r → l * r ≤ type.hi → l * r ∈ rlSet (rlHandleMult left right) := by
  unfold rlHandleMult
  cases zeroLeft : knownZero left with
  | some sval =>
    right
    intro l inLeft r inRight low high
    have zero := ((knownZero_eq_some first zeroLeft).2.2 l).mp inLeft
    rw [zero, Int.zero_mul]
    exact zeroRange_mem first zeroLeft
  | none =>
    dsimp only
    cases zeroRight : knownZero right with
    | some sval =>
      right
      intro l inLeft r inRight low high
      have zero := ((knownZero_eq_some second zeroRight).2.2 r).mp inRight
      rw [zero, Int.mul_zero]
      exact zeroRange_mem second zeroRight
    | none =>
      dsimp only
      split_ifs with whole
      · exact .inl rfl
      · right
        intro l inLeft r inRight low high
        obtain ⟨quadrant, signLeft, signRight⟩ := PosNeg.exists_quadrant l r
        have parts := fun quadrant : PosNeg =>
          multRlHelper_spec (left_kept first quadrant).canonical
            (right_kept second quadrant).canonical rank
            (fun x member => ((left_kept first quadrant).mem_iff x).mp member |>.2)
            (fun x member => ((right_kept second quadrant).mem_iff x).mp member |>.2)
        obtain ⟨-, members⟩ := unionQuadrants_ofKind fun quadrant => (parts quadrant).1
        refine (members _).mpr ⟨quadrant, ?_⟩
        have found := (parts quadrant).2 l (((left_kept first quadrant).mem_iff l).mpr
          ⟨inLeft, signLeft⟩) r (((right_kept second quadrant).mem_iff r).mpr
          ⟨inRight, signRight⟩)
        have same : type.wrap (l * r) = l * r := IntKind.wrap_of_mem low high
        rwa [same] at found

/-- The theorem for `2-3` and `-5-4`. -/
theorem rlHandleMult_contains_small :
    rlHandleMult [⟨intCtype.ofInt 2, intCtype.ofInt 3⟩] [⟨intCtype.ofInt (-5), intCtype.ofInt 4⟩]
        = [] ∨
      ∀ l ∈ rlSet [⟨intCtype.ofInt 2, intCtype.ofInt 3⟩],
        ∀ r ∈ rlSet [⟨intCtype.ofInt (-5), intCtype.ofInt 4⟩],
          intCtype.lo ≤ l * r → l * r ≤ intCtype.hi →
            l * r ∈ rlSet (rlHandleMult [⟨intCtype.ofInt 2, intCtype.ofInt 3⟩]
              [⟨intCtype.ofInt (-5), intCtype.ofInt 4⟩]) :=
  @rlHandleMult_contains intCtype _ _ (by decide) (by decide) (by decide)

example : rlHandleMult [⟨intCtype.ofInt 2, intCtype.ofInt 3⟩]
    [⟨intCtype.ofInt (-5), intCtype.ofInt 4⟩] =
      [⟨intCtype.ofInt (-15), intCtype.ofInt (-2)⟩, ⟨intCtype.ofInt 0, intCtype.ofInt 12⟩] := by
  decide

end Product

end SmatchFormal.RangeMath
